import NetBsd.Kern.ProcGroupMoves

/-!
# Process groups over whole runs

Forks, changes of process group, exits and reaping keep the groups, the sessions and the counts for
job control right, except that an exit does not count the children that it hands to init. A child
that then counts for its own group, because init is in another one, is missing in the count.

## Main definitions

* `Forked`, `Exited`, `Reaped`: what the operations other than `enterpgrp` do
* `Fits`: an exit hands init no child that would have to be counted

## Main results

* `reached_counted`: in a run whose exits fit, the counts are right, and `orphanpg` is called when
  and only when one drops to zero
* `not_counted`: an exit after which a count is wrong
-/

namespace ProcGroup

open Function

variable {initproc : ℕ} {s s' : State}

/-! ## `fork` -/

theorem linkBehind_perm (p₂ : ℕ) {p₁ : ℕ} {l : List ℕ} (h : p₁ ∈ l) :
    (linkBehind p₁ p₂ l).Perm (p₂ :: l) := by
  induction l with
  | nil => cases h
  | cons c cs ih =>
    unfold linkBehind
    split_ifs with hc
    · exact .swap p₂ c cs
    · have hcs : p₁ ∈ cs := (List.mem_cons.mp h).resolve_left fun he => hc he.symm
      exact ((ih hcs).cons c).trans (.swap p₂ c cs)

/-- The new process, linked to its parent and its group. -/
structure Forked (s s' : State) (p₁ p₂ pid : ℕ) (pr : Proc) : Prop where
  proc : s'.proc = update (update s.proc p₁ (some { pr with children := p₂ :: pr.children })) p₂
    (some ⟨pid, false, pr.pgrp, some p₁, []⟩)
  sess : s'.sess = s.sess
  mem : s'.mem = update s.mem pr.pgrp (linkBehind p₁ p₂ (s.mem pr.pgrp))
  jobc : s'.jobc = s.jobc
  session : s'.session = s.session
  hash : s'.pgrphash = s.pgrphash
  orphaned : s'.orphaned = s.orphaned

theorem fork_forked {p₁ p₂ pid : ℕ} {pr : Proc} (hp : s.proc p₁ = some pr)
    (h : fork s p₁ p₂ pid = some s') : Forked s s' p₁ p₂ pid pr := by
  simp only [fork, hp, Option.bind_eq_bind, Option.bind_some, Option.bind_eq_some_iff] at h
  obtain ⟨r, hr, h⟩ := h
  cases h
  refine ⟨rfl, setPgrp_sess _ ?_, ?_, setPgrp_jobc _ ?_, rfl, rfl, rfl⟩
  · exact hr
  · rw [mem_of_pgrp hr]
    exact setPgrp_mem _
  · exact hr

section Forked

variable {p₁ p₂ pid : ℕ} {pr : Proc}

theorem Forked.family (h : Forked s s' p₁ p₂ pid pr) (hp : s.proc p₁ = some pr)
    (hlive : pr.zombie = false) (hfresh : s.proc p₂ = none) (hf : Family initproc s) :
    Family initproc s' := by
  have hne : p₁ ≠ p₂ := by
    rintro rfl
    rw [hp] at hfresh
    cases hfresh
  have hnew : s'.proc p₂ = some ⟨pid, false, pr.pgrp, some p₁, []⟩ := by rw [h.proc, update_self]
  have hpar : s'.proc p₁ = some { pr with children := p₂ :: pr.children } := by
    rw [h.proc, update_of_ne hne, update_self]
  have hother : ∀ c, c ≠ p₁ → c ≠ p₂ → s'.proc c = s.proc c := by
    intro c h₁ h₂
    rw [h.proc, update_of_ne h₂, update_of_ne h₁]
  -- every old process is still there, with the parent it had
  have hold : ∀ {c cr}, s.proc c = some cr → ∃ cr', s'.proc c = some cr' ∧ cr'.pptr = cr.pptr ∧
      cr'.pid = cr.pid ∧ cr'.zombie = cr.zombie ∧ ∀ d, d ∈ cr.children → d ∈ cr'.children := by
    intro c cr hc
    by_cases h₁ : c = p₁
    · subst h₁
      rw [hp] at hc
      cases hc
      exact ⟨_, hpar, rfl, rfl, rfl, fun d hd => List.mem_cons_of_mem p₂ hd⟩
    · have h₂ : c ≠ p₂ := by
        rintro rfl
        rw [hc] at hfresh
        cases hfresh
      exact ⟨cr, (hother c h₁ h₂).trans hc, rfl, rfl, rfl, fun d hd => hd⟩
  have hback : ∀ {c cr'}, s'.proc c = some cr' → c ≠ p₂ → ∃ cr, s.proc c = some cr ∧
      cr'.pptr = cr.pptr ∧ cr'.zombie = cr.zombie ∧
      (cr'.children = cr.children ∨ c = p₁ ∧ cr'.children = p₂ :: pr.children) := by
    intro c cr' hc h₂
    by_cases h₁ : c = p₁
    · subst h₁
      rw [hpar] at hc
      cases hc
      exact ⟨pr, hp, rfl, rfl, .inr ⟨rfl, rfl⟩⟩
    · rw [hother c h₁ h₂] at hc
      exact ⟨cr', hc, rfl, rfl, .inl rfl⟩
  have hnokid : ∀ {q qr}, s.proc q = some qr → p₂ ∉ qr.children := by
    intro q qr hq hmem
    obtain ⟨cr, hcr, -⟩ := hf.child hq hmem
    rw [hfresh] at hcr
    cases hcr
  constructor
  · intro q qr' c hq hc
    by_cases hq₂ : q = p₂
    · subst hq₂
      rw [hnew] at hq
      cases hq
      cases hc
    · obtain ⟨qr, hqr, -, -, hkids | ⟨rfl, hkids⟩⟩ := hback hq hq₂
      · obtain ⟨cr, hcr, hcp⟩ := hf.child hqr (hkids ▸ hc)
        obtain ⟨cr', hcr', hpp, -⟩ := hold hcr
        exact ⟨cr', hcr', hpp.trans hcp⟩
      · rw [hkids, List.mem_cons] at hc
        obtain rfl | hc := hc
        · exact ⟨_, hnew, rfl⟩
        · obtain ⟨cr, hcr, hcp⟩ := hf.child hp hc
          obtain ⟨cr', hcr', hpp, -⟩ := hold hcr
          exact ⟨cr', hcr', hpp.trans hcp⟩
  · intro c cr' q hc hq
    by_cases hc₂ : c = p₂
    · subst hc₂
      rw [hnew] at hc
      cases hc
      cases hq
      exact ⟨_, hpar, List.mem_cons_self⟩
    · obtain ⟨cr, hcr, hpp, -⟩ := hback hc hc₂
      obtain ⟨qr, hqr, hmem⟩ := hf.parent hcr (hpp ▸ hq)
      obtain ⟨qr', hqr', -, -, -, hkids⟩ := hold hqr
      exact ⟨qr', hqr', hkids c hmem⟩
  · intro q qr' hq
    by_cases hq₂ : q = p₂
    · subst hq₂
      rw [hnew] at hq
      cases hq
      exact List.nodup_nil
    · obtain ⟨qr, hqr, -, -, hkids | ⟨rfl, hkids⟩⟩ := hback hq hq₂
      · exact hkids ▸ hf.nodup hqr
      · rw [hkids]
        exact List.nodup_cons.mpr ⟨hnokid hp, hf.nodup hp⟩
  · intro c cr' hc
    by_cases hc₂ : c = p₂
    · subst hc₂
      rw [hnew] at hc
      cases hc
      intro he
      exact hne (Option.some.inj he)
    · obtain ⟨cr, hcr, hpp, -⟩ := hback hc hc₂
      exact hpp ▸ hf.self hcr
  · intro q qr' hq hz
    by_cases hq₂ : q = p₂
    · subst hq₂
      rw [hnew] at hq
      cases hq
      rfl
    · obtain ⟨qr, hqr, -, hzz, hkids | ⟨rfl, hkids⟩⟩ := hback hq hq₂
      · exact hkids ▸ hf.zombie hqr (hzz ▸ hz)
      · rw [hp] at hqr
        cases hqr
        rw [hzz, hlive] at hz
        cases hz
  · obtain ⟨ir, hir, hz, hpid⟩ := hf.init
    obtain ⟨ir', hir', -, hpid', hz', -⟩ := hold hir
    exact ⟨ir', hir', hz'.trans hz, hpid'.trans hpid⟩
  · intro ir' q qr' hir hq hqr
    obtain ⟨i, hi, -⟩ := hf.init
    have hi₂ : initproc ≠ p₂ := by
      rintro rfl
      rw [hi] at hfresh
      cases hfresh
    obtain ⟨ir, hir', hpp, -⟩ := hback hir hi₂
    have hq₂ : q ≠ p₂ := by
      rintro rfl
      obtain ⟨qr, hqr, -⟩ := hf.parent hir' (hpp ▸ hq)
      rw [hqr] at hfresh
      cases hfresh
    obtain ⟨qr, hqr', hpp', -⟩ := hback hqr hq₂
    exact hpp'.trans (hf.root hir' (hpp ▸ hq) hqr')

theorem Forked.groups (h : Forked s s' p₁ p₂ pid pr) (hp : s.proc p₁ = some pr)
    (hfresh : s.proc p₂ = none) (hg : Groups s) : Groups s' := by
  have hnot : ∀ g, p₂ ∉ s.mem g := by
    intro g hmem
    obtain ⟨r, hr, -⟩ := hg.mem hmem
    rw [hfresh] at hr
    cases hr
  have hperm := linkBehind_perm p₂ (hg.member hp)
  have hmem : ∀ g c, c ∈ s'.mem g ↔ (g = pr.pgrp ∧ c = p₂) ∨ c ∈ s.mem g := by
    intro g c
    rw [h.mem]
    by_cases hgp : g = pr.pgrp
    · subst hgp
      rw [update_self, hperm.mem_iff, List.mem_cons]
      simp
    · rw [update_of_ne hgp]
      simp [hgp]
  have hproc : ∀ c, c ≠ p₂ → (s'.proc c).map Proc.pgrp = (s.proc c).map Proc.pgrp := by
    intro c hc
    rw [h.proc, update_of_ne hc]
    by_cases hc₁ : c = p₁
    · subst hc₁
      rw [update_self, hp]
      rfl
    · rw [update_of_ne hc₁]
  constructor
  · intro c cr hc
    rw [hmem]
    by_cases hc₂ : c = p₂
    · subst hc₂
      rw [h.proc, update_self] at hc
      cases hc
      exact .inl ⟨rfl, rfl⟩
    · have hsame := hproc c hc₂
      rw [hc] at hsame
      obtain ⟨r, hr, hrg⟩ := Option.map_eq_some_iff.mp hsame.symm
      exact .inr (hrg ▸ hg.member hr)
  · intro g c hc
    obtain ⟨rfl, rfl⟩ | hc := (hmem g c).mp hc
    · exact ⟨⟨pid, false, pr.pgrp, some p₁, []⟩, by rw [h.proc, update_self], rfl⟩
    · obtain ⟨r, hr, hrg⟩ := hg.mem hc
      have hc₂ : c ≠ p₂ := fun he => hnot g (he ▸ hc)
      have hsame := hproc c hc₂
      rw [hr] at hsame
      obtain ⟨r', hr', hrg'⟩ := Option.map_eq_some_iff.mp hsame
      exact ⟨r', hr', hrg'.trans hrg⟩
  · intro g
    rw [h.mem]
    by_cases hgp : g = pr.pgrp
    · subst hgp
      rw [update_self, hperm.nodup_iff]
      exact List.nodup_cons.mpr ⟨hnot _, hg.nodup _⟩
    · rw [update_of_ne hgp]
      exact hg.nodup g
  · rw [h.hash]
    exact hg.hash
  · rw [h.hash, h.sess]
    exact hg.hashed
  · rw [h.sess, h.session]
    exact hg.session
  · rw [h.sess, h.session, h.hash]
    exact hg.count

theorem Forked.number (h : Forked s s' p₁ p₂ pid pr) (hp : s.proc p₁ = some pr)
    (hfresh : s.proc p₂ = none) (hf : Family initproc s) (hg : Groups s) :
    s'.number = s.number := by
  have hne : p₁ ≠ p₂ := by
    rintro rfl
    rw [hp] at hfresh
    cases hfresh
  -- the new process is in the group of its parent
  have hnew : s'.qualifies p₂ = false := by
    have h₁ : s'.proc p₂ = some ⟨pid, false, pr.pgrp, some p₁, []⟩ := by rw [h.proc, update_self]
    have h₂ : s'.proc p₁ = some { pr with children := p₂ :: pr.children } := by
      rw [h.proc, update_of_ne hne, update_self]
    simp [State.qualifies, State.joins, State.Across, h₁, h₂]
  have hproc : ∀ c, c ≠ p₂ → (s'.proc c).map Proc.face = (s.proc c).map Proc.face := by
    intro c hc
    rw [h.proc, update_of_ne hc]
    by_cases hc₁ : c = p₁
    · subst hc₁
      rw [update_self, hp]
      rfl
    · rw [update_of_ne hc₁]
  have hold : ∀ c, c ≠ p₂ → s'.qualifies c = s.qualifies c := by
    intro c hc
    refine qualifies_congr hg (hproc c hc) ?_ (fun g _ => by rw [h.sess])
    intro cr q hcr hq
    obtain ⟨qr, hqr, -⟩ := hf.parent hcr hq
    have hq₂ : q ≠ p₂ := by
      rintro rfl
      rw [hqr] at hfresh
      cases hfresh
    have hsame := congrArg (Option.map fun f : Bool × ℕ × Option ℕ => f.2.1) (hproc q hq₂)
    rw [Option.map_map, Option.map_map] at hsame
    exact hsame
  have hmem : ∀ g, ∀ c ∈ s.mem g, s'.qualifies c = s.qualifies c := by
    intro g c hc
    obtain ⟨r, hr, -⟩ := hg.mem hc
    apply hold
    rintro rfl
    rw [hr] at hfresh
    cases hfresh
  funext g
  have hcount : (s.mem g).countP s'.qualifies = (s.mem g).countP s.qualifies :=
    List.countP_congr fun c hc => by rw [hmem g c hc]
  rw [State.number, State.number, h.mem, ← hcount]
  by_cases hgp : g = pr.pgrp
  · subst hgp
    rw [update_self, (linkBehind_perm _ (hg.member hp)).countP_eq,
      List.countP_cons_of_neg (by simp [hnew])]
  · rw [update_of_ne hgp]

end Forked

theorem fork_spec (hi : Inv initproc s) {p₁ p₂ pid : ℕ}
    (hlive : ∃ pr, s.proc p₁ = some pr ∧ pr.zombie = false) (hfresh : s.proc p₂ = none)
    (h : fork s p₁ p₂ pid = some s') : Inv initproc s' ∧ Noted s s' := by
  obtain ⟨pr, hp, hz⟩ := hlive
  obtain ⟨hf, hg, hcounted⟩ := hi
  have hforked := fork_forked hp h
  have hnum := hforked.number hp hfresh hf hg
  refine ⟨⟨hforked.family hp hz hfresh hf, hforked.groups hp hfresh hg, ?_⟩, ?_⟩
  · intro g
    rw [hforked.jobc, hnum]
    exact hcounted g
  · exact .refl_of hforked.orphaned hnum

/-! ## `exit` -/

/-- The processes after the hand-over. -/
def handed (proc : ℕ → Option Proc) (initproc : ℕ) (ir : Proc) (kids : List ℕ) (c : ℕ) :
    Option Proc :=
  if c = initproc then some { ir with children := kids.reverse ++ ir.children }
  else if c ∈ kids then (proc c).map fun r => { r with pptr := some initproc }
  else proc c

theorem handOver_eq {kids : List ℕ} {ir : Proc} (hi : s.proc initproc = some ir)
    (hinit : initproc ∉ kids) (h : handOver initproc kids s = some s') :
    s' = { s with proc := handed s.proc initproc ir kids } := by
  induction kids generalizing s ir with
  | nil =>
    obtain rfl : s = s' := Option.some.inj h
    have hproc : handed s.proc initproc ir [] = s.proc := by
      funext c
      unfold handed
      split_ifs with hc hmem
      · rw [hc, hi]
        rfl
      · cases hmem
      · rfl
    rw [hproc]
  | cons c cs ih =>
    obtain ⟨hne, hinit'⟩ : initproc ≠ c ∧ initproc ∉ cs := by
      rw [List.mem_cons, not_or] at hinit
      exact hinit
    simp only [handOver, hi, Option.bind_eq_bind, Option.bind_some, Option.bind_eq_some_iff] at h
    obtain ⟨q, hq, h⟩ := h
    have hqc : s.proc c = some q := by
      simpa [State.setProc, update_of_ne (Ne.symm hne)] using hq
    have hi' : ((s.setProc initproc { ir with children := c :: ir.children }).setProc c
        { q with pptr := some initproc }).proc initproc =
        some { ir with children := c :: ir.children } := by
      simp [State.setProc, hne]
    rw [ih hi' hinit' h]
    simp only [State.setProc]
    congr 1
    funext d
    unfold handed
    by_cases hd : d = initproc
    · simp [hd]
    · by_cases hdc : d = c
      · subst hdc
        by_cases hmem : d ∈ cs <;> simp [hd, hmem, hqc]
      · by_cases hmem : d ∈ cs <;> simp [hd, hdc, hmem]

/-- The process is a zombie without children; its children are init's. -/
structure Exited (s s' : State) (initproc p : ℕ) (pr ir : Proc) : Prop where
  proc : s'.proc = update (handed s.proc initproc ir pr.children) p
    (some { pr with zombie := true, children := [] })
  sess : s'.sess = s.sess
  mem : s'.mem = s.mem
  session : s'.session = s.session
  hash : s'.pgrphash = s.pgrphash

section Exited

variable {p : ℕ} {pr ir : Proc}

/-- What becomes of one process. -/
theorem Exited.forth (h : Exited s s' initproc p pr ir) (hp : s.proc p = some pr)
    (hi : s.proc initproc = some ir) (hpi : p ≠ initproc) (hself : p ∉ pr.children) {c : ℕ}
    {cr : Proc} (hc : s.proc c = some cr) : ∃ cr', s'.proc c = some cr' ∧
      cr'.pgrp = cr.pgrp ∧ cr'.pid = cr.pid ∧
      cr'.pptr = (if c ∈ pr.children ∧ c ≠ initproc then some initproc else cr.pptr) ∧
      cr'.zombie = (if c = p then true else cr.zombie) ∧
      cr'.children = (if c = p then [] else
        if c = initproc then pr.children.reverse ++ ir.children else cr.children) := by
  rw [h.proc]
  by_cases hcp : c = p
  · subst hcp
    rw [hp] at hc
    cases hc
    rw [update_self]
    exact ⟨_, rfl, rfl, rfl, by simp [hself], by simp, by simp⟩
  · rw [update_of_ne hcp]
    unfold handed
    by_cases hci : c = initproc
    · subst hci
      rw [hi] at hc
      cases hc
      rw [if_pos rfl]
      exact ⟨_, rfl, rfl, rfl, by simp, by simp [hcp], by simp [hcp]⟩
    · rw [if_neg hci]
      by_cases hmem : c ∈ pr.children
      · rw [if_pos hmem, hc]
        exact ⟨_, rfl, rfl, rfl, by simp [hmem, hci], by simp [hcp], by simp [hcp, hci]⟩
      · rw [if_neg hmem]
        exact ⟨cr, hc, rfl, rfl, by simp [hmem], by simp [hcp], by simp [hcp, hci]⟩

theorem Exited.back (h : Exited s s' initproc p pr ir) (hp : s.proc p = some pr)
    (hi : s.proc initproc = some ir) {c : ℕ} {cr' : Proc} (hc : s'.proc c = some cr') :
    ∃ cr, s.proc c = some cr := by
  rw [h.proc] at hc
  by_cases hcp : c = p
  · exact ⟨pr, hcp ▸ hp⟩
  · rw [update_of_ne hcp] at hc
    unfold handed at hc
    split_ifs at hc with hci hmem
    · exact ⟨ir, hci ▸ hi⟩
    · obtain ⟨cr, hcr, -⟩ := Option.map_eq_some_iff.mp hc
      exact ⟨cr, hcr⟩
    · exact ⟨cr', hc⟩

theorem Exited.family (h : Exited s s' initproc p pr ir) (hp : s.proc p = some pr)
    (hi : s.proc initproc = some ir) (hpi : p ≠ initproc) (hpar : pr.pptr ≠ none)
    (hf : Family initproc s) : Family initproc s' := by
  have hself := hf.self_not_mem hp
  obtain ⟨q₀, hq₀⟩ := Option.ne_none_iff_exists'.mp hpar
  have hinit := hf.init_not_mem hp hq₀
  have hforth := fun {c : ℕ} {cr : Proc} (hc : s.proc c = some cr) => h.forth hp hi hpi hself hc
  -- a process that was there, with what it is now
  have hboth : ∀ {c cr'}, s'.proc c = some cr' → ∃ cr, s.proc c = some cr ∧
      cr'.pptr = (if c ∈ pr.children ∧ c ≠ initproc then some initproc else cr.pptr) ∧
      cr'.zombie = (if c = p then true else cr.zombie) ∧
      cr'.children = (if c = p then [] else
        if c = initproc then pr.children.reverse ++ ir.children else cr.children) := by
    intro c cr' hc
    obtain ⟨cr, hcr⟩ := h.back hp hi hc
    obtain ⟨cr₂, hcr₂, -, -, h₁, h₂, h₃⟩ := hforth hcr
    rw [hc] at hcr₂
    cases hcr₂
    exact ⟨cr, hcr, h₁, h₂, h₃⟩
  constructor
  · intro q qr' c hq hc
    obtain ⟨qr, hqr, -, -, hkids⟩ := hboth hq
    rw [hkids] at hc
    split_ifs at hc with hqp hqi
    · cases hc
    · subst hqi
      rw [hi] at hqr
      cases hqr
      rw [List.mem_append, List.mem_reverse] at hc
      by_cases hmem : c ∈ pr.children
      · obtain ⟨cr, hcr, -⟩ := hf.child hp hmem
        obtain ⟨cr', hcr', -, -, hpp, -⟩ := hforth hcr
        refine ⟨cr', hcr', ?_⟩
        rw [hpp, if_pos ⟨hmem, fun he => hinit (he ▸ hmem)⟩]
      · obtain ⟨cr, hcr, hcp⟩ := hf.child hi (hc.resolve_left hmem)
        obtain ⟨cr', hcr', -, -, hpp, -⟩ := hforth hcr
        exact ⟨cr', hcr', by rw [hpp, if_neg fun hm => hmem hm.1, hcp]⟩
    · obtain ⟨cr, hcr, hcp⟩ := hf.child hqr hc
      obtain ⟨cr', hcr', -, -, hpp, -⟩ := hforth hcr
      refine ⟨cr', hcr', ?_⟩
      rw [hpp, if_neg, hcp]
      rintro ⟨hmem, -⟩
      obtain ⟨cr₂, hcr₂, hcp₂⟩ := hf.child hp hmem
      rw [hcr] at hcr₂
      cases hcr₂
      rw [hcp] at hcp₂
      exact hqp (Option.some.inj hcp₂)
  · intro c cr' q hc hq
    obtain ⟨cr, hcr, hpp, -, -⟩ := hboth hc
    rw [hpp] at hq
    split_ifs at hq with hmem
    · cases hq
      obtain ⟨ir', hir', -, -, -, -, hkids⟩ := hforth hi
      refine ⟨ir', hir', ?_⟩
      rw [hkids, if_neg hpi.symm, if_pos rfl, List.mem_append, List.mem_reverse]
      exact .inl hmem.1
    · obtain ⟨qr, hqr, hcq⟩ := hf.parent hcr hq
      obtain ⟨qr', hqr', -, -, -, -, hkids⟩ := hforth hqr
      refine ⟨qr', hqr', ?_⟩
      rw [hkids]
      have hqp : q ≠ p := by
        rintro rfl
        rw [hp] at hqr
        cases hqr
        exact hmem ⟨hcq, fun he => hinit (he ▸ hcq)⟩
      rw [if_neg hqp]
      split_ifs with hqi
      · subst hqi
        rw [hi] at hqr
        cases hqr
        exact List.mem_append_right _ hcq
      · exact hcq
  · intro q qr' hq
    obtain ⟨qr, hqr, -, -, hkids⟩ := hboth hq
    rw [hkids]
    split_ifs with hqp hqi
    · exact List.nodup_nil
    · -- what init gets was not init's
      rw [List.nodup_append, List.nodup_reverse]
      refine ⟨hf.nodup hp, hf.nodup hi, ?_⟩
      intro a ha b hb hab
      subst hab
      rw [List.mem_reverse] at ha
      obtain ⟨cr, hcr, hcp⟩ := hf.child hp ha
      obtain ⟨cr₂, hcr₂, hcp₂⟩ := hf.child hi hb
      rw [hcr] at hcr₂
      cases hcr₂
      rw [hcp] at hcp₂
      exact hpi (Option.some.inj hcp₂)
    · exact hf.nodup hqr
  · intro c cr' hc
    obtain ⟨cr, hcr, hpp, -, -⟩ := hboth hc
    rw [hpp]
    split_ifs with hmem
    · intro he
      exact hmem.2 (Option.some.inj he).symm
    · exact hf.self hcr
  · intro q qr' hq hz
    obtain ⟨qr, hqr, -, hzz, hkids⟩ := hboth hq
    rw [hkids]
    split_ifs with hqp hqi
    · rfl
    · obtain ⟨ir₂, hir₂, hlive, -⟩ := hf.init
      rw [hzz, if_neg hqp] at hz
      subst hqi
      rw [hqr] at hir₂
      cases hir₂
      rw [hlive] at hz
      cases hz
    · rw [hzz, if_neg hqp] at hz
      exact hf.zombie hqr hz
  · obtain ⟨ir₂, hir₂, hlive, hpid⟩ := hf.init
    obtain ⟨ir', hir', -, hpid', -, hz', -⟩ := hforth hir₂
    refine ⟨ir', hir', ?_, hpid'.trans hpid⟩
    rw [hz', if_neg hpi.symm, hlive]
  · intro ir' q qr' hir hq hqr
    obtain ⟨ir₂, hir₂, hpp, -, -⟩ := hboth hir
    rw [if_neg fun hm => hm.2 rfl] at hpp
    obtain ⟨qr, hqr₂, hpp', -, -⟩ := hboth hqr
    have hnone := hf.root hir₂ (hpp ▸ hq) hqr₂
    rw [hpp', if_neg, hnone]
    rintro ⟨hmem, -⟩
    obtain ⟨cr, hcr, hcp⟩ := hf.child hp hmem
    rw [hqr₂] at hcr
    cases hcr
    rw [hnone] at hcp
    cases hcp

theorem Exited.groups (h : Exited s s' initproc p pr ir) (hp : s.proc p = some pr)
    (hi : s.proc initproc = some ir) (hpi : p ≠ initproc) (hself : p ∉ pr.children)
    (hg : Groups s) : Groups s' := by
  constructor
  · intro c cr' hc
    obtain ⟨cr, hcr⟩ := h.back hp hi hc
    obtain ⟨cr₂, hcr₂, hgrp, -⟩ := h.forth hp hi hpi hself hcr
    rw [hc] at hcr₂
    cases hcr₂
    rw [h.mem, hgrp]
    exact hg.member hcr
  · intro g c hc
    rw [h.mem] at hc
    obtain ⟨cr, hcr, hcg⟩ := hg.mem hc
    obtain ⟨cr', hcr', hgrp, -⟩ := h.forth hp hi hpi hself hcr
    exact ⟨cr', hcr', hgrp.trans hcg⟩
  · rw [h.mem]
    exact hg.nodup
  · rw [h.hash]
    exact hg.hash
  · rw [h.hash, h.sess]
    exact hg.hashed
  · rw [h.sess, h.session]
    exact hg.session
  · rw [h.sess, h.session, h.hash]
    exact hg.count

/-- The zombie does not count, and its children do not count under init. -/
theorem Exited.number (h : Exited s s' initproc p pr ir) (hp : s.proc p = some pr)
    (hi : s.proc initproc = some ir) (hpi : p ≠ initproc) (hinit : initproc ∉ pr.children)
    (hf : Family initproc s) (hg : Groups s) (hfit : ∀ c ∈ pr.children, s.joins ir.pgrp c = false) (g : ℕ) :
    s'.number g = restOf s p pr.children g := by
  have hself := hf.self_not_mem hp
  have hforth := fun {c : ℕ} {cr : Proc} (hc : s.proc c = some cr) => h.forth hp hi hpi hself hc
  have hac : ∀ a b, s'.Across a b ↔ s.Across a b := by
    intro a b
    rw [State.Across, State.Across, h.sess]
  have hown : s'.qualifies p = false := by
    have hz : ∀ x, s'.joins x p = false := by
      intro x
      simp [State.joins, h.proc]
    unfold State.qualifies
    split <;> simp [hz]
  obtain ⟨ir', hir', higrp, -⟩ := hforth hi
  have hkid : ∀ c ∈ pr.children, s'.qualifies c = false := by
    intro c hc
    obtain ⟨cr, hcr, -⟩ := hf.child hp hc
    obtain ⟨cr', hcr', hgrp, -, hpp, hz, -⟩ := hforth hcr
    have hcp : c ≠ p := fun he => hself (he ▸ hc)
    have hci : c ≠ initproc := fun he => hinit (he ▸ hc)
    rw [if_pos ⟨hc, hci⟩] at hpp
    rw [if_neg hcp] at hz
    have hjoin := hfit c hc
    simp only [State.joins, hcr] at hjoin
    simp only [State.qualifies, State.joins, hcr', hpp, hir', Option.bind_some, hz, hgrp, higrp, hac]
    exact hjoin
  have hrest : ProcGroup.restOf s' p pr.children g = ProcGroup.restOf s p pr.children g := by
    unfold ProcGroup.restOf
    rw [h.mem]
    apply List.countP_congr
    intro c _
    by_cases hc : c ≠ p ∧ c ∉ pr.children
    · have hqual : s'.qualifies c = s.qualifies c := by
        refine qualifies_congr hg ?_ ?_ (fun g _ => by rw [h.sess])
        · cases hcr : s.proc c with
          | none =>
            cases hcr' : s'.proc c with
            | none => rfl
            | some r' =>
              obtain ⟨cr, hcr₂⟩ := h.back hp hi hcr'
              rw [hcr] at hcr₂
              cases hcr₂
          | some cr =>
            obtain ⟨cr', hcr', hgrp, -, hpp, hz, -⟩ := hforth hcr
            rw [if_neg fun hm => hc.2 hm.1] at hpp
            rw [if_neg hc.1] at hz
            simp [hcr', Proc.face, hgrp, hpp, hz]
        · intro cr q hcr hq
          obtain ⟨qr, hqr, -⟩ := hf.parent hcr hq
          obtain ⟨qr', hqr', hgrp, -⟩ := hforth hqr
          simp [hqr, hqr', hgrp]
      rw [hqual]
    · simp [hc]
  rw [State.number, countP_split (s'.mem g) pr.children hself, ← ProcGroup.restOf, hrest]
  have h₁ : (s'.mem g).countP (fun c => decide (c = p) && s'.qualifies c) = 0 := by
    apply List.countP_eq_zero.mpr
    intro c _
    by_cases hcp : c = p <;> simp [hcp, hown]
  have h₂ : (s'.mem g).countP (fun c => decide (c ∈ pr.children) && s'.qualifies c) = 0 := by
    apply List.countP_eq_zero.mpr
    intro c _
    by_cases hmem : c ∈ pr.children
    · simp [hkid c hmem]
    · simp [hmem]
  rw [h₁, h₂]
  omega

end Exited

/-- No child that is handed to init counts for its group because init is in another group of its
session. -/
def Fits (initproc : ℕ) (s : State) (p : ℕ) : Prop :=
  ∀ pr ir c, s.proc p = some pr → s.proc initproc = some ir → c ∈ pr.children →
    s.joins ir.pgrp c = false

/-- A change of the leader is none of the counts' business. -/
theorem Inv.setSession (hi : Inv initproc s) {k : ℕ} {v w : Session} (hv : s.session k = some v)
    (hcount : w.count = v.count) : Inv initproc (s.setSession k w) := by
  obtain ⟨hf, hg, hcounted⟩ := hi
  refine ⟨hf.congr fun _ => rfl, ?_, hcounted⟩
  obtain ⟨hmember, hmem, hnodup, hhash, hhashed, hsession, hcnt⟩ := hg
  refine ⟨hmember, hmem, hnodup, hhash, hhashed, ?_, ?_⟩
  · intro g k' hk'
    by_cases hkk : k' = k
    · subst hkk
      simp [State.setSession]
    · simpa [State.setSession, hkk] using hsession hk'
  · intro k' v' hv'
    by_cases hkk : k' = k
    · subst hkk
      obtain rfl : w = v' := by simpa [State.setSession] using hv'
      rw [hcount]
      exact hcnt hv
    · exact hcnt (by simpa [State.setSession, hkk] using hv')

theorem exit_spec (hi : Inv initproc s) {p : ℕ}
    (hlive : ∃ pr, s.proc p = some pr ∧ pr.zombie = false) (hfit : Fits initproc s p)
    (h : exit s initproc p = some s') : Inv initproc s' ∧ Noted s s' := by
  obtain ⟨pr, hp, hz⟩ := hlive
  simp only [exit, hp, Option.bind_eq_bind, Option.bind_some, Option.bind_eq_some_iff] at h
  obtain ⟨r, hr, v, hv, h⟩ := h
  by_cases hpid : pr.pid = 1
  · rw [if_pos hpid] at h
    cases h
  rw [if_neg hpid] at h
  -- the session may lose its leader
  generalize ht : (if v.leader = some p then s.setSession r.session { v with leader := none }
    else s) = t at h
  have hsame : t.proc = s.proc ∧ t.pgrp = s.pgrp ∧ t.orphaned = s.orphaned ∧ Inv initproc t := by
    subst ht
    split_ifs
    · exact ⟨rfl, rfl, rfl, hi.setSession hv rfl⟩
    · exact ⟨rfl, rfl, rfl, hi⟩
  obtain ⟨hproc, hpgrp, horph, hit⟩ := hsame
  have hsess : t.sess = s.sess := by
    funext g
    rw [State.sess, State.sess, hpgrp]
  have hjoins : t.joins = s.joins := joins_congr hproc hsess
  have hnumber : t.number = s.number := by
    refine number_congr hi.groups hproc ?_ (fun g _ => by rw [hsess])
    funext g
    rw [State.mem, State.mem, hpgrp]
  obtain ⟨hf, hg, hcounted⟩ := id hit
  obtain ⟨ir, hir, -, hipid⟩ := hf.init
  have hpi : p ≠ initproc := by
    rintro rfl
    rw [← hproc, hir] at hp
    cases hp
    exact hpid hipid
  rw [← hproc] at hp
  simp only [Option.bind_eq_some_iff] at h
  obtain ⟨s₁, h₁, s₂, h₂, h⟩ := h
  obtain ⟨q, hpq⟩ := parent_of_fixjobc hp h₁
  obtain ⟨qr, hq, -⟩ := hf.parent hp hpq
  have hinit := hf.init_not_mem hp hpq
  have hseen : Seen t p pr q qr := ⟨hp, hz, hpq, hq⟩
  -- the process leaves its group for the count
  obtain ⟨log, hleave, hlog⟩ := hseen.leave hit 0 (fun _ _ => rfl)
  have hzero : t.shift (fun g => (((0 : ℕ → ℕ) g : ℕ) : ℤ)) t.orphaned = t := State.shift_zero
  rw [hzero] at hleave
  rw [hleave] at h₁
  cases h₁
  have hir' : ∀ u : State, u.proc = t.proc →
      (u.setProc p { pr with zombie := true }).proc initproc = some ir := by
    intro u hu
    simpa [State.setProc, hu, hpi.symm] using hir
  rw [handOver_eq (hir' _ (by rfl)) hinit h₂] at h
  have hexited : Exited t s' initproc p pr ir := by
    cases h
    refine ⟨?_, ?_, ?_, rfl, rfl⟩
    · funext c
      simp only [State.setProc, State.shift_proc]
      by_cases hc : c = p
      · rw [hc, update_self, update_self]
      · rw [update_of_ne hc, update_of_ne hc]
        simp only [handed, update_of_ne hc]
    · exact State.shift_sess _ log
    · exact State.shift_mem _ log
  have hjobc : ∀ g, s'.jobc g = restOf t p pr.children g := by
    intro g
    have hj : s'.jobc g = (t.shift (fun g => (((0 : ℕ → ℕ) g : ℕ) : ℤ) -
        ((targets t qr.pgrp pr.pgrp pr.children).count g : ℤ)) log).jobc g := by
      cases h
      rfl
    rw [hj, State.shift_jobc, hcounted g, hseen.number_eq hf hg g]
    · simp only [Pi.zero_apply]
      omega
    · intro hnone
      have hmem : g ∉ targets t qr.pgrp pr.pgrp pr.children := by
        intro hmem
        have hsome := hseen.targets_isSome hf hg (hg.isSome hp) g hmem
        rw [hnone] at hsome
        cases hsome
      rw [List.count_eq_zero.mpr hmem]
      rfl
  have hnum := hexited.number hp hir hpi hinit hf hg (by
    intro c hc
    rw [hjoins]
    exact hfit pr ir c (hproc ▸ hp) (hproc ▸ hir) hc)
  refine ⟨⟨?_, ?_, ?_⟩, ?_⟩
  · exact hexited.family hp hir hpi (by rw [hpq]; exact Option.some_ne_none q) hf
  · exact hexited.groups hp hir hpi (hf.self_not_mem hp) hg
  · intro g
    rw [hjobc, hnum]
  · intro g
    have horph' : s'.orphaned = log := by
      cases h
      rfl
    rw [horph', hlog g, hnum g, horph, hnumber, Pi.zero_apply, Nat.zero_add]

/-! ## `reap` -/

/-- The zombie is in no group, and gone. -/
structure Reaped (s s' : State) (p q : ℕ) (pr qr : Proc) : Prop where
  proc : s'.proc = update (update s.proc q (some { qr with children := qr.children.erase p })) p
    none
  sess : s'.sess = s.sess
  mem : s'.mem = update s.mem pr.pgrp ((s.mem pr.pgrp).erase p)
  jobc : s'.jobc = s.jobc
  session : s'.session = s.session
  hash : s'.pgrphash = s.pgrphash
  orphaned : s'.orphaned = s.orphaned

section Reaped

variable {p q : ℕ} {pr qr : Proc}

theorem Reaped.back (h : Reaped s s' p q pr qr) (hq : s.proc q = some qr) {c : ℕ} {cr' : Proc}
    (hc : s'.proc c = some cr') : c ≠ p ∧ ∃ cr, s.proc c = some cr ∧ cr'.pptr = cr.pptr ∧
      cr'.pgrp = cr.pgrp ∧ cr'.zombie = cr.zombie ∧
      cr'.children = if c = q then qr.children.erase p else cr.children := by
  rw [h.proc] at hc
  have hcp : c ≠ p := by
    rintro rfl
    rw [update_self] at hc
    cases hc
  rw [update_of_ne hcp] at hc
  refine ⟨hcp, ?_⟩
  by_cases hcq : c = q
  · subst hcq
    rw [update_self] at hc
    cases hc
    exact ⟨qr, hq, rfl, rfl, rfl, (if_pos rfl).symm⟩
  · rw [update_of_ne hcq] at hc
    exact ⟨cr', hc, rfl, rfl, rfl, (if_neg hcq).symm⟩

theorem Reaped.forth (h : Reaped s s' p q pr qr) (hq : s.proc q = some qr) {c : ℕ} {cr : Proc}
    (hc : s.proc c = some cr) (hcp : c ≠ p) : ∃ cr', s'.proc c = some cr' ∧ cr'.pptr = cr.pptr ∧
      cr'.pgrp = cr.pgrp ∧ cr'.zombie = cr.zombie ∧ cr'.pid = cr.pid ∧
      cr'.children = if c = q then qr.children.erase p else cr.children := by
  rw [h.proc, update_of_ne hcp]
  by_cases hcq : c = q
  · subst hcq
    rw [hq] at hc
    cases hc
    rw [update_self]
    exact ⟨_, rfl, rfl, rfl, rfl, rfl, (if_pos rfl).symm⟩
  · rw [update_of_ne hcq]
    exact ⟨cr, hc, rfl, rfl, rfl, rfl, (if_neg hcq).symm⟩

/-- A zombie is nobody's parent. -/
theorem Family.parent_ne (hf : Family initproc s) (hp : s.proc p = some pr)
    (hz : pr.zombie = true) {c d : ℕ} {cr : Proc} (hc : s.proc c = some cr)
    (hd : cr.pptr = some d) : d ≠ p := by
  rintro rfl
  obtain ⟨dr, hdr, hmem⟩ := hf.parent hc hd
  rw [hp] at hdr
  cases hdr
  rw [hf.zombie hp hz] at hmem
  cases hmem

theorem Reaped.family (h : Reaped s s' p q pr qr) (hp : s.proc p = some pr)
    (hz : pr.zombie = true) (hpq : pr.pptr = some q) (hq : s.proc q = some qr)
    (hf : Family initproc s) : Family initproc s' := by
  have hforth := fun {c : ℕ} {cr : Proc} (hc : s.proc c = some cr) => h.forth hq hc
  have hback := fun {c : ℕ} {cr : Proc} (hc : s'.proc c = some cr) => h.back hq hc
  have hinit : initproc ≠ p := by
    rintro rfl
    obtain ⟨ir, hir, hlive, -⟩ := hf.init
    rw [hp] at hir
    cases hir
    rw [hz] at hlive
    cases hlive
  constructor
  · intro d dr' c hd hc
    obtain ⟨hdp, dr, hdr, -, -, -, hkids⟩ := hback hd
    rw [hkids] at hc
    have hcd : c ∈ dr.children ∧ c ≠ p := by
      split_ifs at hc with hdq
      · subst hdq
        rw [hq] at hdr
        cases hdr
        rw [(hf.nodup hq).mem_erase_iff] at hc
        exact ⟨hc.2, hc.1⟩
      · refine ⟨hc, ?_⟩
        rintro rfl
        obtain ⟨cr, hcr, hcp⟩ := hf.child hdr hc
        rw [hp] at hcr
        cases hcr
        rw [hpq] at hcp
        exact hdq (Option.some.inj hcp).symm
    obtain ⟨cr, hcr, hcp⟩ := hf.child hdr hcd.1
    obtain ⟨cr', hcr', hpp, -⟩ := hforth hcr hcd.2
    exact ⟨cr', hcr', hpp.trans hcp⟩
  · intro c cr' d hc hd
    obtain ⟨hcp, cr, hcr, hpp, -⟩ := hback hc
    rw [hpp] at hd
    obtain ⟨dr, hdr, hmem⟩ := hf.parent hcr hd
    obtain ⟨dr', hdr', -, -, -, -, hkids⟩ := hforth hdr (hf.parent_ne hp hz hcr hd)
    refine ⟨dr', hdr', ?_⟩
    rw [hkids]
    split_ifs with hdq
    · subst hdq
      rw [hq] at hdr
      cases hdr
      exact (List.mem_erase_of_ne hcp).mpr hmem
    · exact hmem
  · intro d dr' hd
    obtain ⟨-, dr, hdr, -, -, -, hkids⟩ := hback hd
    rw [hkids]
    split_ifs
    · exact (hf.nodup hq).erase p
    · exact hf.nodup hdr
  · intro c cr' hc
    obtain ⟨-, cr, hcr, hpp, -⟩ := hback hc
    rw [hpp]
    exact hf.self hcr
  · intro d dr' hd hdz
    obtain ⟨-, dr, hdr, -, -, hzz, hkids⟩ := hback hd
    rw [hkids]
    have hnil := hf.zombie hdr (hzz ▸ hdz)
    split_ifs with hdq
    · subst hdq
      rw [hq] at hdr
      cases hdr
      rw [hnil]
      rfl
    · exact hnil
  · obtain ⟨ir, hir, hlive, hpid⟩ := hf.init
    obtain ⟨ir', hir', -, -, hz', hpid', -⟩ := hforth hir hinit
    exact ⟨ir', hir', hz'.trans hlive, hpid'.trans hpid⟩
  · intro ir' d dr' hir hd hdr
    obtain ⟨-, ir, hir₂, hpp, -⟩ := hback hir
    obtain ⟨-, dr, hdr₂, hpp', -⟩ := hback hdr
    exact hpp'.trans (hf.root hir₂ (hpp ▸ hd) hdr₂)

theorem Reaped.groups (h : Reaped s s' p q pr qr) (hp : s.proc p = some pr)
    (hq : s.proc q = some qr) (hg : Groups s) : Groups s' := by
  have hmem : ∀ g c, c ∈ s'.mem g ↔ c ≠ p ∧ c ∈ s.mem g := by
    intro g c
    rw [h.mem]
    by_cases hgp : g = pr.pgrp
    · subst hgp
      rw [update_self, (hg.nodup _).mem_erase_iff]
    · rw [update_of_ne hgp]
      constructor
      · intro hc
        refine ⟨?_, hc⟩
        rintro rfl
        exact hgp ((hg.mem_iff hp).mp hc).symm
      · exact fun hc => hc.2
  constructor
  · intro c cr' hc
    obtain ⟨hcp, cr, hcr, -, hgrp, -⟩ := h.back hq hc
    rw [hmem, hgrp]
    exact ⟨hcp, hg.member hcr⟩
  · intro g c hc
    obtain ⟨hcp, hc⟩ := (hmem g c).mp hc
    obtain ⟨cr, hcr, hcg⟩ := hg.mem hc
    obtain ⟨cr', hcr', -, hgrp, -⟩ := h.forth hq hcr hcp
    exact ⟨cr', hcr', hgrp.trans hcg⟩
  · intro g
    rw [h.mem]
    by_cases hgp : g = pr.pgrp
    · subst hgp
      rw [update_self]
      exact (hg.nodup _).erase p
    · rw [update_of_ne hgp]
      exact hg.nodup g
  · rw [h.hash]
    exact hg.hash
  · rw [h.hash, h.sess]
    exact hg.hashed
  · rw [h.sess, h.session]
    exact hg.session
  · rw [h.sess, h.session, h.hash]
    exact hg.count

theorem Reaped.number (h : Reaped s s' p q pr qr) (hp : s.proc p = some pr)
    (hz : pr.zombie = true) (hq : s.proc q = some qr) (hf : Family initproc s) (hg : Groups s) :
    s'.number = s.number := by
  have hface : ∀ c, c ≠ p → (s'.proc c).map Proc.face = (s.proc c).map Proc.face := by
    intro c hcp
    rw [h.proc, update_of_ne hcp]
    by_cases hcq : c = q
    · subst hcq
      rw [update_self, hq]
      rfl
    · rw [update_of_ne hcq]
  have hnot : s'.qualifies p = false := by
    simp [State.qualifies, h.proc]
  have hnot' : s.qualifies p = false := by
    unfold State.qualifies
    split
    · rfl
    · simp [State.joins, hp, hz]
  have hold : ∀ c, c ≠ p → s'.qualifies c = s.qualifies c := by
    intro c hcp
    refine qualifies_congr hg (hface c hcp) ?_ (fun g _ => by rw [h.sess])
    intro cr d hcr hd
    have hsame := congrArg (Option.map fun f : Bool × ℕ × Option ℕ => f.2.1)
      (hface d (hf.parent_ne hp hz hcr hd))
    rw [Option.map_map, Option.map_map] at hsame
    exact hsame
  have hqual : s'.qualifies = s.qualifies := by
    funext c
    by_cases hcp : c = p
    · rw [hcp, hnot, hnot']
    · exact hold c hcp
  funext g
  rw [State.number, State.number, hqual, h.mem]
  by_cases hgp : g = pr.pgrp
  · subst hgp
    rw [update_self, countP_erase_of_not hnot']
  · rw [update_of_ne hgp]

end Reaped

theorem reap_spec (hi : Inv initproc s) {p : ℕ} (hzombie : ∃ pr, s.proc p = some pr ∧
    pr.zombie = true) (h : reap s p = some s') : Inv initproc s' ∧ Noted s s' := by
  obtain ⟨pr, hp, hz⟩ := hzombie
  obtain ⟨hf, hg, hcounted⟩ := id hi
  simp only [reap, hp, Option.bind_eq_bind, Option.bind_some, Option.bind_eq_some_iff] at h
  obtain ⟨s₁, h₁, q, hpq, qr, hq, h⟩ := h
  obtain ⟨m, hm, hdrop⟩ := unlink_spec hp h₁
  have hproc₁ : s₁.proc = s.proc := by
    obtain rfl | hd := hdrop
    · exact hm.proc
    · rw [hd.proc, hm.proc]
  rw [hproc₁] at hq
  -- the state without the process, before its group is deleted
  obtain ⟨t, ht⟩ : ∃ t : State, t = { m with
      proc := update (update s.proc q (some { qr with children := qr.children.erase p })) p
        none } := ⟨_, rfl⟩
  have hreaped : Reaped s t p q pr qr := by
    subst ht
    exact ⟨rfl, hm.sess, hm.mem, hm.jobc, hm.session, hm.hash, hm.orphaned⟩
  have hnum := hreaped.number hp hz hq hf hg
  have hinv : Inv initproc t := by
    refine ⟨hreaped.family hp hz hpq hq hf, hreaped.groups hp hq hg, ?_⟩
    intro g
    rw [hreaped.jobc, hnum]
    exact hcounted g
  obtain rfl | hd := hdrop
  · have hs' : s' = t := by
      rw [ht, ← Option.some.inj h]
      simp only [State.setProc, hproc₁]
    subst hs'
    exact ⟨hinv, .refl_of hreaped.orphaned hnum⟩
  · have hd' : Dropped t s' pr.pgrp := by
      obtain ⟨k, v, hk, hv, hsession⟩ := hd.session
      rw [← Option.some.inj h, ht]
      refine ⟨?_, hd.mem, hd.jobc, hd.gone, hd.sess, hd.hash, hd.orphaned, hd.empty, k, v, hk, hv,
        hsession⟩
      simp only [State.setProc, hproc₁]
    refine ⟨hd'.inv hinv, .refl_of ?_ ?_⟩
    · rw [hd'.orphaned, hreaped.orphaned]
    · rw [hd'.number hinv.groups, hnum]

/-! ## Runs -/

/-- An exit hands init no child that would have to be counted. -/
def Sound (initproc : ℕ) (s : State) : Act → Prop
  | .exit p => Fits initproc s p
  | _ => True

theorem step_spec {act : Act} (hi : Inv initproc s) (hs : Sound initproc s act)
    (h : Step initproc s act s') : Inv initproc s' ∧ Noted s s' := by
  cases h with
  | fork p₁ p₂ pid _ hlive hfresh hrun => exact fork_spec hi hlive hfresh hrun
  | enterpgrp curproc newpgrp newsess p pgid mksess _ hlive hpgrp hsess hrun =>
    exact enterpgrp_spec hi hlive hpgrp hsess hrun
  | exit p _ hlive hrun => exact exit_spec hi hlive hs hrun
  | reap p _ hzombie hrun => exact reap_spec hi hzombie hrun

/-- Every process is on the list of its group, once, and on no other, and its group is there; the
count of a session is the number of its groups; the count of a group for job control is the number
of its members that are no zombies and have their parent in another group of the session. -/
structure Correct (s : State) : Prop where
  mem_iff : ∀ p g, p ∈ s.mem g ↔ ∃ pr, s.proc p = some pr ∧ pr.pgrp = g
  nodup : ∀ g, (s.mem g).Nodup
  kept : ∀ p pr, s.proc p = some pr → ∃ r, s.pgrp pr.pgrp = some r
  listed : s.pgrphash.Nodup ∧ ∀ g, g ∈ s.pgrphash ↔ ∃ r, s.pgrp g = some r
  count : ∀ k v, s.session k = some v →
    v.count = s.pgrphash.countP fun g => decide (s.sess g = some k)
  jobc : ∀ g r, s.pgrp g = some r → r.jobc = r.mem.countP s.qualifies

theorem Inv.correct (hi : Inv initproc s) : Correct s := by
  have hsome : ∀ g, (s.sess g).isSome ↔ ∃ r, s.pgrp g = some r := by
    intro g
    simp [State.sess, Option.isSome_iff_exists]
  refine ⟨?_, hi.groups.nodup, ?_, ⟨hi.groups.hash, ?_⟩, fun k v => hi.groups.count, ?_⟩
  · intro p g
    constructor
    · exact hi.groups.mem
    · rintro ⟨pr, hp, rfl⟩
      exact hi.groups.member hp
  · intro p pr hp
    exact (hsome _).mp (hi.groups.isSome hp)
  · intro g
    exact (hi.groups.hashed g).trans (hsome g)
  · intro g r hr
    have hc := hi.counted g
    rw [State.number, mem_of_pgrp hr] at hc
    rw [← hc]
    simp [State.jobc, hr]

/-- From any process tree, through any sequence of operations whose exits fit, the groups are
correct, and the next operation calls `orphanpg` for the groups whose number drops to zero. -/
theorem reached_counted {s₀ : State} (h₀ : Inv initproc s₀)
    (h : Reached initproc (Sound initproc) s₀ s) :
    Correct s ∧ ∀ act s', Sound initproc s act → Step initproc s act s' → Noted s s' := by
  have hi : Inv initproc s := by
    induction h with
    | start => exact h₀
    | step _ hstep hP ih => exact (step_spec ih hP hstep).1
  exact ⟨hi.correct, fun act s' hs hstep => (step_spec hi hs hstep).2⟩

/-- After the boot: process 0, and init as its child, in one group. -/
def boot : State where
  proc p := if p = 0 then some ⟨0, false, 0, none, [1]⟩
    else if p = 1 then some ⟨1, false, 0, some 0, []⟩ else none
  pgrp g := if g = 0 then some ⟨0, 0, 0, [0, 1]⟩ else none
  session k := if k = 0 then some ⟨some 0, 1⟩ else none
  pgrphash := [0]
  orphaned := []

theorem boot_proc {p : ℕ} {pr : Proc} (h : boot.proc p = some pr) :
    p = 0 ∧ pr = ⟨0, false, 0, none, [1]⟩ ∨ p = 1 ∧ pr = ⟨1, false, 0, some 0, []⟩ := by
  simp only [boot] at h
  split_ifs at h with h₀ h₁
  · exact .inl ⟨h₀, (Option.some.inj h).symm⟩
  · exact .inr ⟨h₁, (Option.some.inj h).symm⟩

theorem boot_mem (g : ℕ) : boot.mem g = if g = 0 then [0, 1] else [] := by
  simp only [State.mem, boot]
  split_ifs <;> rfl

theorem boot_sess (g : ℕ) : boot.sess g = if g = 0 then some 0 else none := by
  simp only [State.sess, boot]
  split_ifs <;> rfl

theorem boot_inv : Inv 1 boot where
  family := by
    constructor
    · intro q qr c hq hc
      obtain ⟨rfl, rfl⟩ | ⟨rfl, rfl⟩ := boot_proc hq
      · obtain rfl := List.mem_singleton.mp hc
        exact ⟨_, rfl, rfl⟩
      · cases hc
    · intro c cr q hc hq
      obtain ⟨rfl, rfl⟩ | ⟨rfl, rfl⟩ := boot_proc hc
      · cases hq
      · cases hq
        exact ⟨_, rfl, by decide⟩
    · intro q qr hq
      obtain ⟨rfl, rfl⟩ | ⟨rfl, rfl⟩ := boot_proc hq <;> decide
    · intro c cr hc
      obtain ⟨rfl, rfl⟩ | ⟨rfl, rfl⟩ := boot_proc hc <;> decide
    · intro q qr hq hz
      obtain ⟨rfl, rfl⟩ | ⟨rfl, rfl⟩ := boot_proc hq <;> cases hz
    · exact ⟨_, rfl, rfl, rfl⟩
    · intro ir q qr hi hq hqr
      obtain ⟨h, -⟩ | ⟨-, rfl⟩ := boot_proc hi
      · cases h
      · cases hq
        obtain ⟨-, rfl⟩ | ⟨h, -⟩ := boot_proc hqr
        · rfl
        · cases h
  groups := by
    constructor
    · intro p pr hp
      obtain ⟨rfl, rfl⟩ | ⟨rfl, rfl⟩ := boot_proc hp <;> decide
    · intro g p hp
      rw [boot_mem] at hp
      split_ifs at hp with hg
      · subst hg
        obtain rfl | hp := List.mem_cons.mp hp
        · exact ⟨_, rfl, rfl⟩
        · obtain rfl := List.mem_singleton.mp hp
          exact ⟨_, rfl, rfl⟩
      · cases hp
    · intro g
      rw [boot_mem]
      split_ifs <;> decide
    · exact List.nodup_singleton 0
    · intro g
      rw [boot_sess]
      by_cases hg : g = 0 <;> simp [boot, hg]
    · intro g k hk
      rw [boot_sess] at hk
      split_ifs at hk
      cases hk
      rfl
    · intro k v hv
      simp only [boot] at hv
      split_ifs at hv with hk
      subst hk
      cases hv
      rfl
  counted g := by
    by_cases hg : g = 0
    · subst hg
      rfl
    · simp [State.jobc, State.number, boot, State.mem, hg]

/-- init forks, and its child makes a group, and exits. -/
theorem reached_counted_boot : ∃ s, Reached 1 (Sound 1) boot s ∧ s.jobc 2 = 0 ∧ Correct s := by
  have h₁ : Reached 1 (Sound 1) boot _ :=
    .step .start (.fork 1 2 2 _ ⟨_, rfl, rfl⟩ rfl rfl) trivial
  have h₂ := h₁.step (.enterpgrp 2 2 9 2 2 false _ ⟨_, rfl, rfl⟩ rfl rfl rfl) trivial
  have h₃ := h₂.step (.exit 2 _ ⟨_, rfl, rfl⟩ rfl) (by
    intro pr ir c hp _ hc
    cases hp
    cases hc)
  exact ⟨_, h₃, by decide, (reached_counted boot_inv h₃).1⟩

/-- init makes a session, and its child makes a group there with a child of its own. When the child
exits, the grandchild counts for the group because of init, but is not counted. -/
theorem not_counted : ¬ ∀ s, Reached 1 (fun _ _ => True) boot s →
    ∀ g, s.jobc g = s.number g := by
  intro hall
  have h₁ : Reached 1 (fun _ _ => True) boot _ :=
    .step .start (.enterpgrp 1 1 1 1 1 true _ ⟨_, rfl, rfl⟩ rfl rfl rfl) trivial
  have h₂ := h₁.step (.fork 1 2 2 _ ⟨_, rfl, rfl⟩ rfl rfl) trivial
  have h₃ := h₂.step (.fork 2 3 3 _ ⟨_, rfl, rfl⟩ rfl rfl) trivial
  have h₄ := h₃.step (.enterpgrp 2 2 9 2 2 false _ ⟨_, rfl, rfl⟩ rfl rfl rfl) trivial
  have h₅ := h₄.step (.enterpgrp 2 9 9 3 2 false _ ⟨_, rfl, rfl⟩ rfl rfl rfl) trivial
  have h₆ := h₅.step (.exit 2 _ ⟨_, rfl, rfl⟩ rfl) trivial
  exact absurd (hall _ h₆ 2) (by decide)

end ProcGroup
