import NetBsd.Net.Bpf.Filter

/-!
# What a filter can learn of the stack

`bpf_filter` does not initialise `A`, `X` and the scratch words, and `bpf_validate` does not
look for a program that uses them before it sets them, so the verdict of an accepted program
can depend on what the stack held. It does not when the run keeps to defined values wherever
its course or its verdict depends on one.

## Main definitions

* `Defined`, `flow`: which registers and scratch words hold a value that no initial content
  went into, and how an instruction changes this
* `UsesOk`: the instruction decides nothing by an undefined value

## Main results

* `bpfFilter_residue_free`: under `UsesOk` two runs from different initial contents give one
  verdict
-/

namespace Bpf

open Machine (Outcome Reached)

/-- The registers and scratch words whose value is independent of the initial contents. -/
structure Defined where
  A : Bool
  X : Bool
  mem : Fin BPF_MEMWORDS → Bool

/-- Nothing is defined on entry. -/
def Defined.none : Defined := ⟨false, false, fun _ => false⟩

def Defined.operand (d : Defined) : Src → Bool
  | .k => true
  | .x => d.X

/-- The defined places after an instruction. -/
def flow (i : BpfInsn) (d : Defined) : Op → Defined
  | .ldWAbs | .ldHAbs | .ldBAbs | .ldWLen | .ldWInd | .ldHInd | .ldBInd | .ldImm =>
    { d with A := true }
  | .ldxWLen | .ldxMshB | .ldxImm => { d with X := true }
  | .ldMem => { d with A := (memIndex i.k).any d.mem }
  | .ldxMem => { d with X := (memIndex i.k).any d.mem }
  | .st =>
    match memIndex i.k with
    | some j => { d with mem := Function.update d.mem j d.A }
    | Option.none => d
  | .stx =>
    match memIndex i.k with
    | some j => { d with mem := Function.update d.mem j d.X }
    | Option.none => d
  | .alu _ src => { d with A := d.A && d.operand src }
  | .tax => { d with X := d.A }
  | .txa => { d with A := d.X }
  | .retK | .retA | .ja | .jmp _ _ | .neg => d

/-- The instruction returns, branches on, divides by, or finds its load by defined values
only, and its scratch index is in range. -/
def UseOk (i : BpfInsn) (d : Defined) : Op → Prop
  | .retA => d.A = true
  | .ldWInd | .ldHInd | .ldBInd => d.X = true
  | .jmp _ src => d.A = true ∧ d.operand src = true
  | .alu .div src => d.operand src = true
  | .ldMem | .ldxMem | .st | .stx => (memIndex i.k).isSome = true
  | _ => True

/-- One turn of the loop, with the defined places kept beside the state. -/
def stepDefined (f : List BpfInsn) (p : Packet) (wirelen buflen : Word) (s : State × Defined) :
    Outcome (State × Defined) Word Fault :=
  (step f p wirelen buflen s.1).bind fun t =>
    .next (t, (((fetch f s.1.pc).bind fun i => (decode i.code).map (flow i s.2))).getD s.2)

/-- The instruction about to run decides nothing by an undefined value. -/
def UsesOk (f : List BpfInsn) (s : State × Defined) : Prop :=
  ∀ i o, fetch f s.1.pc = some i → decode i.code = some o → UseOk i s.2 o

/-- Two states at one instruction that agree wherever `d` is set. -/
structure Agree (s : State × Defined) (t : State) : Prop where
  pc : s.1.pc = t.pc
  A : s.2.A = true → s.1.A = t.A
  X : s.2.X = true → s.1.X = t.X
  mem : ∀ j, s.2.mem j = true → s.1.mem j = t.mem j

theorem Agree.operand {s : State × Defined} {t : State} (h : Agree s t) (i : BpfInsn) {src : Src}
    (hd : s.2.operand src = true) : s.1.operand i src = t.operand i src := by
  cases src with
  | k => rfl
  | x => exact h.X hd

/-- A store of values that are equal if `b` is set keeps the agreement. -/
theorem Agree.store {s : State × Defined} {t : State} (h : Agree s t) (j : Fin BPF_MEMWORDS)
    {b : Bool} {v w : Word} (hv : b = true → v = w) :
    Agree ({ s.1 with mem := Function.update s.1.mem j v, pc := s.1.pc + 1 },
        { s.2 with mem := Function.update s.2.mem j b })
      { t with mem := Function.update t.mem j w, pc := t.pc + 1 } := by
  refine ⟨by simp [h.pc], h.A, h.X, fun k hk => ?_⟩
  by_cases hkj : k = j
  · subst hkj
    simpa using hv (by simpa using hk)
  · simp only [Function.update_of_ne hkj] at hk ⊢
    exact h.mem k hk

/-- One instruction, run from states that agree where `d` is set, with defined uses. -/
theorem exec_agree (p : Packet) (wirelen buflen : Word) {i : BpfInsn} {s t : State} {d : Defined}
    {o : Op} (h : Agree (s, d) t) (hu : UseOk i d o) :
    (exec p wirelen buflen i s o).Rel (fun s' t' => Agree (s', flow i d o) t')
      (exec p wirelen buflen i t o) := by
  obtain ⟨hpc, hA, hX, hmem⟩ := id h
  dsimp only at hpc hA hX hmem
  -- a load puts one value into one register on both sides
  have hload : ∀ (v : Except Fault (Option Word)) (put put' : Word → State) (d' : Defined),
      (∀ a, Agree ({ put a with pc := s.pc + 1 }, d') { put' a with pc := t.pc + 1 }) →
      (s.loaded v put).Rel (fun s' t' => Agree (s', d') t') (t.loaded v put') := by
    rintro (e | _ | a) put put' d' hput
    · exact .fault e
    · exact .ret 0
    · exact .next (hput a)
  have hpc' : s.pc + 1 = t.pc + 1 := by rw [hpc]
  cases o with
  | retK => exact .ret _
  | retA => simpa only [exec, hA hu] using Outcome.Rel.ret _
  | ldWAbs | ldHAbs | ldBAbs => exact hload _ _ _ _ fun a => ⟨hpc', fun _ => rfl, hX, hmem⟩
  | ldxMshB => exact hload _ _ _ _ fun a => ⟨hpc', hA, fun _ => rfl, hmem⟩
  | ldWInd | ldHInd | ldBInd =>
    simp only [exec, hX hu]
    exact hload _ _ _ _ fun a => ⟨hpc', fun _ => rfl, fun _ => rfl, hmem⟩
  | ldWLen | ldImm => exact .next ⟨hpc', fun _ => rfl, hX, hmem⟩
  | ldxWLen | ldxImm => exact .next ⟨hpc', hA, fun _ => rfl, hmem⟩
  | ldMem =>
    obtain ⟨j, hj⟩ := Option.isSome_iff_exists.mp hu
    simp only [exec, hj, flow]
    exact .next ⟨hpc', fun hd => hmem j (by simpa using hd), hX, hmem⟩
  | ldxMem =>
    obtain ⟨j, hj⟩ := Option.isSome_iff_exists.mp hu
    simp only [exec, hj, flow]
    exact .next ⟨hpc', hA, fun hd => hmem j (by simpa using hd), hmem⟩
  | st =>
    obtain ⟨j, hj⟩ := Option.isSome_iff_exists.mp hu
    simp only [exec, hj, flow]
    exact .next (h.store j hA)
  | stx =>
    obtain ⟨j, hj⟩ := Option.isSome_iff_exists.mp hu
    simp only [exec, hj, flow]
    exact .next (h.store j hX)
  | ja => exact .next ⟨by simp [hpc], hA, hX, hmem⟩
  | jmp c src =>
    simp only [exec, hA hu.1, h.operand i hu.2]
    exact .next ⟨by simp [hpc], fun _ => rfl, hX, hmem⟩
  | alu op src =>
    have hboth : (d.A && d.operand src) = true → s.A = t.A ∧ s.operand i src = t.operand i src := by
      intro hd
      rw [Bool.and_eq_true] at hd
      exact ⟨hA hd.1, h.operand i hd.2⟩
    by_cases hop : op = .div
    · subst hop
      cases src with
      | x =>
        have hx : s.X = t.X := hX hu
        simp only [exec, hx]
        split
        · exact .ret 0
        · exact .next ⟨hpc', fun hd => by rw [(hboth hd).1], fun _ => rfl, hmem⟩
      | k =>
        simp only [exec]
        split
        · exact .fault _
        · exact .next ⟨hpc', fun hd => by rw [(hboth hd).1], hX, hmem⟩
    · have hexec : ∀ r : State, exec p wirelen buflen i r (.alu op src) =
          { r with A := op.eval r.A (r.operand i src) }.cont := by
        intro r
        cases op <;> first | rfl | exact absurd rfl hop
      rw [hexec, hexec]
      exact .next ⟨hpc', fun hd => by rw [(hboth hd).1, (hboth hd).2], hX, hmem⟩
  | neg => exact .next ⟨hpc', fun hd => congrArg Neg.neg (hA hd), hX, hmem⟩
  | tax => exact .next ⟨hpc', hA, hA, hmem⟩
  | txa => exact .next ⟨hpc', hX, hX, hmem⟩

theorem step_agree {f : List BpfInsn} {p : Packet} {wirelen buflen : Word} {s : State × Defined}
    {t : State} (h : Agree s t) (hu : UsesOk f s) :
    (stepDefined f p wirelen buflen s).Rel Agree (step f p wirelen buflen t) := by
  unfold stepDefined
  cases hi : fetch f s.1.pc with
  | none =>
    rw [step_of_fetch_none hi, step_of_fetch_none (h.pc ▸ hi)]
    exact .fault _
  | some i =>
    cases ho : decode i.code with
    | none =>
      rw [step_of_decode_none hi ho, step_of_decode_none (h.pc ▸ hi) ho]
      exact .ret 0
    | some o =>
      rw [step_eq_exec hi ho, step_eq_exec (h.pc ▸ hi) ho]
      simp only [Option.bind_some, ho, Option.map_some, Option.getD_some]
      have hx := exec_agree p wirelen buflen h (hu i o hi ho)
      generalize exec p wirelen buflen i s.1 o = a at hx ⊢
      generalize exec p wirelen buflen i t o = b at hx ⊢
      cases hx with
      | next hR => exact .next hR
      | ret v => exact .ret v
      | fault e => exact .fault e

/-- The state of the run with defined places is that of the plain run. -/
theorem run_stepDefined (f : List BpfInsn) (p : Packet) (wirelen buflen : Word)
    (s : State × Defined) (n : ℕ) :
    (Machine.run (stepDefined f p wirelen buflen) n s).Rel (fun s t => s.1 = t)
      (Machine.run (step f p wirelen buflen) n s.1) := by
  refine Machine.run_rel (R := fun (s : State × Defined) t => s.1 = t) _ _ rfl ?_ n
  rintro ⟨s, d⟩ t - rfl
  unfold stepDefined
  cases step f p wirelen buflen s with
  | next u => exact .next rfl
  | ret v => exact .ret v
  | fault e => exact .fault e

/-- Two runs of one program on one packet, whatever `A`, `X` and `mem` hold at the start of
each, give one verdict, if the first decides nothing by an undefined value. -/
theorem bpfFilter_residue_free (f : List BpfInsn) (p : Packet) (wirelen buflen : Word)
    (A X A' X' : Word) (mem mem' : Fin BPF_MEMWORDS → Word)
    (hu : ∀ s, Reached (stepDefined f p wirelen buflen) (⟨0, A, X, mem⟩, Defined.none) s →
      UsesOk f s) (n : ℕ) (v : Word) :
    bpfFilter (some f) p wirelen buflen A X mem n = .ret v ↔
      bpfFilter (some f) p wirelen buflen A' X' mem' n = .ret v := by
  have h₁ := run_stepDefined f p wirelen buflen (⟨0, A, X, mem⟩, Defined.none) n
  have h₂ : (Machine.run (stepDefined f p wirelen buflen) n (⟨0, A, X, mem⟩, Defined.none)).Rel
      Agree (Machine.run (step f p wirelen buflen) n ⟨0, A', X', mem'⟩) := by
    refine Machine.run_rel _ _ ⟨rfl, nofun, nofun, nofun⟩ ?_ n
    intro s t hs hst
    exact step_agree hst (hu s hs)
  simp only [bpfFilter]
  generalize Machine.run (stepDefined f p wirelen buflen) n _ = o at h₁ h₂
  generalize Machine.run (step f p wirelen buflen) n ⟨0, A, X, mem⟩ = o₁ at h₁ ⊢
  generalize Machine.run (step f p wirelen buflen) n ⟨0, A', X', mem'⟩ = o₂ at h₂ ⊢
  cases h₁ <;> cases h₂ <;> simp

/-- A filter that sets `A` before it returns it. -/
theorem bpfFilter_residue_free_imm :
    bpfFilter (some [⟨Op.ldImm.code, 0, 0, 5⟩, ⟨Op.retA.code, 0, 0, 0⟩]) (.buffer [7]) 1 1 0 0
        (fun _ => 0) 2 = .ret 5 ↔
      bpfFilter (some [⟨Op.ldImm.code, 0, 0, 5⟩, ⟨Op.retA.code, 0, 0, 0⟩]) (.buffer [7]) 1 1 3 4
        (fun _ => 9) 2 = .ret 5 := by
  refine bpfFilter_residue_free _ _ _ _ _ _ _ _ _ _ ?_ 2 5
  rintro s ⟨n, hn⟩ i o hi ho
  match n, hn with
  | 0, hn =>
    cases hn
    cases hi
    rw [decode_code] at ho
    cases ho
    trivial
  | 1, hn =>
    cases hn
    cases hi
    rw [decode_code] at ho
    cases ho
    rfl
  | _ + 2, hn => cases hn

/-- The one-instruction filter that returns `A` is accepted, and returns what `A` held. -/
theorem bpfFilter_returns_residue :
    ¬ ∀ (f : List BpfInsn) (p : Packet) (wirelen buflen A X A' X' : Word)
      (mem mem' : Fin BPF_MEMWORDS → Word) (n : ℕ) (v : Word), bpfValidate f = true →
      (bpfFilter (some f) p wirelen buflen A X mem n = .ret v ↔
        bpfFilter (some f) p wirelen buflen A' X' mem' n = .ret v) := by
  intro h
  have hret := h [⟨Op.retA.code, 0, 0, 0⟩] (.buffer [7]) 1 1 1 0 2 0 (fun _ => 0) (fun _ => 0) 1 1
    (by decide)
  have h₂ := hret.mp rfl
  cases h₂

end Bpf
