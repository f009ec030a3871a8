import Mathlib
import NetBsd.Net.Bpf.Filter

/-!
# What the checker guarantees

A program that `bpf_validate` accepts is run on a packet held in one buffer. The checker
bounds the conditional jumps, `BPF_LD|BPF_MEM`, `BPF_ST` and the constant divisor. It misses
jumps `BPF_JA` that go backwards or whose target wraps, and the scratch words of
`BPF_LDX|BPF_MEM` and `BPF_STX`; the interpreter misses load offsets that wrap. A run that
meets none of these returns a value.

## Main definitions

* `JumpOk`, `AccessOk`: the steps that the checks cover

## Main results

* `exec_fault_iff`: a checked instruction faults exactly when its access is not covered
* `bpfFilter_returns_iff`: the run of an accepted program, as far as its jumps go forward,
  returns a value if and only if all its accesses are covered
-/

namespace Bpf

open Machine (Outcome Reached)

/-! ## What an accepted instruction satisfies -/

/-- The part of `bpf_validate` that concerns the instruction `p`, at index `i`, with case `o`. -/
structure Checked (len i : Int) (p : BpfInsn) (o : Op) : Prop where
  ja : o = .ja → addInt (i + 1) p.k < len
  jt : ∀ c src, o = .jmp c src → i + 1 + p.jt.toNat < len
  jf : ∀ c src, o = .jmp c src → i + 1 + p.jf.toNat < len
  mem : o = .ldMem ∨ o = .st → 0 ≤ p.k.toInt ∧ p.k.toInt < BPF_MEMWORDS
  div : o = .alu .div .k → p.k ≠ 0

theorem Checked.of_insnOk {len i : Int} {p : BpfInsn} {o : Op} (h : insnOk len i p = true)
    (ho : decode p.code = some o) : Checked len i p o := by
  have hc := code_of_decode ho
  constructor
  · rintro rfl
    simp [insnOk, ← hc, Op.code, BPF_CLASS, BPF_OP] at h
    omega
  · rintro c src rfl
    cases c <;> cases src <;>
      simp [insnOk, ← hc, Op.code, Cond.code, Src.code, BPF_CLASS, BPF_OP] at h <;> omega
  · rintro c src rfl
    cases c <;> cases src <;>
      simp [insnOk, ← hc, Op.code, Cond.code, Src.code, BPF_CLASS, BPF_OP] at h <;> omega
  · rintro (rfl | rfl) <;> simp [insnOk, ← hc, Op.code, BPF_CLASS, BPF_MEMWORDS] at h ⊢ <;> omega
  · rintro rfl
    simpa [insnOk, ← hc, Op.code, AluOp.code, Src.code, BPF_CLASS] using h

/-- The cases that end the program. -/
def Op.IsRet (o : Op) : Prop := o = .retK ∨ o = .retA

theorem Op.isRet_of_class {o : Op} (h : BPF_CLASS o.code = BPF_RET) : o.IsRet := by
  cases o with
  | retK => exact .inl rfl
  | retA => exact .inr rfl
  | jmp c src => cases c <;> cases src <;> exact absurd h (by decide)
  | alu op src => cases op <;> cases src <;> exact absurd h (by decide)
  | _ => exact absurd h (by decide)

/-- In an accepted program every instruction with a case is checked, and the last one ends
the program. -/
theorem checked_of_bpfValidate {f : List BpfInsn} (hf : bpfValidate f = true) {pc : Int}
    {p : BpfInsn} {o : Op} (hp : fetch f pc = some p) (ho : decode p.code = some o) :
    Checked f.length pc p o ∧ (pc + 1 < f.length ∨ o.IsRet) := by
  obtain ⟨hall, hlast⟩ := Bool.and_eq_true_iff.mp hf
  have hpc : 0 ≤ pc := by
    by_contra h
    simp [fetch, h] at hp
  obtain ⟨n, rfl⟩ := Int.eq_ofNat_of_zero_le hpc
  have hn : f[n]? = some p := by simpa [fetch] using hp
  obtain ⟨hlt, hget⟩ := List.getElem?_eq_some_iff.mp hn
  have hok : insnOk f.length n p = true := by
    rw [List.all_eq_true] at hall
    exact hall (p, n) (List.mk_mem_zipIdx_iff_getElem?.mpr hn)
  refine ⟨Checked.of_insnOk hok ho, ?_⟩
  by_cases hend : n + 1 < f.length
  · left
    exact_mod_cast hend
  · right
    have hl : f.getLast? = some p := by
      rw [List.getLast?_eq_getElem?, show f.length - 1 = n by omega, hn]
    rw [hl] at hlast
    exact Op.isRet_of_class (by rw [code_of_decode ho]; simpa using hlast)

theorem fetch_eq_some_iff {f : List BpfInsn} {pc : Int} :
    (∃ p, fetch f pc = some p) ↔ 0 ≤ pc ∧ pc < f.length := by
  constructor
  · rintro ⟨p, hp⟩
    unfold fetch at hp
    split at hp
    · obtain ⟨hlt, -⟩ := List.getElem?_eq_some_iff.mp hp
      omega
    · cases hp
  · rintro ⟨h₀, h₁⟩
    exact ⟨f.get ⟨pc.toNat, by omega⟩, by simp [fetch, h₀]⟩

/-! ## The steps that are covered -/

/-- A load at offset `k`, given whether it passes the comparison with `buflen`. -/
def LoadOk (buflen k : Word) (passes : Prop) : Prop := buflen ≠ 0 ∧ (passes → 0 ≤ k.toInt)

/-- The accesses of the instruction `i` stay in bounds, where the checker does not see to it:
the length test of a load is not fooled by a wrapped sum or by an empty buffer, and the
scratch index of `BPF_LDX|BPF_MEM` and `BPF_STX` is in range. -/
def AccessOk (buflen : Word) (i : BpfInsn) (s : State) : Op → Prop
  | .ldWAbs => LoadOk buflen i.k (i.k + 4 ≤ buflen)
  | .ldHAbs => LoadOk buflen i.k (i.k + 2 ≤ buflen)
  | .ldBAbs | .ldxMshB => LoadOk buflen i.k (i.k < buflen)
  | .ldWInd => LoadOk buflen (s.X + i.k) (s.X + i.k + 4 ≤ buflen)
  | .ldHInd => LoadOk buflen (s.X + i.k) (s.X + i.k + 2 ≤ buflen)
  | .ldBInd => LoadOk buflen (s.X + i.k) (s.X + i.k < buflen)
  | .ldxMem | .stx => 0 ≤ i.k.toInt ∧ i.k.toInt < BPF_MEMWORDS
  | _ => True

/-- The instruction about to run accesses what it may. -/
def AccessesOk (f : List BpfInsn) (buflen : Word) (s : State) : Prop :=
  ∀ i o, fetch f s.pc = some i → decode i.code = some o → AccessOk buflen i s o

/-- The instruction about to run, if it is `BPF_JA`, jumps forward, to an index that does not
wrap. -/
def JumpOk (f : List BpfInsn) (s : State) : Prop :=
  ∀ i, fetch f s.pc = some i → decode i.code = some .ja →
    0 ≤ i.k.toInt ∧ s.pc + 1 + i.k.toInt < 2 ^ 31

/-! ## Loads from a buffer -/

theorem byteAt_of_mem {p : List Byte} {i : Int} (h₀ : 0 ≤ i) (h₁ : i < p.length) :
    ∃ b, byteAt p i = .ok b :=
  ⟨p.get ⟨i.toNat, by omega⟩, by simp [byteAt, h₀, show i.toNat < p.length by omega]⟩

theorem byteAt_of_neg {p : List Byte} {i : Int} (h : i < 0) : byteAt p i = .error .packet := by
  simp [byteAt, show ¬ 0 ≤ i by omega]

theorem extractLong_of_mem {p : List Byte} {i : Int} (h₀ : 0 ≤ i) (h₁ : i + 3 < p.length) :
    ∃ a, extractLong p i = .ok a := by
  obtain ⟨b₀, hb₀⟩ := byteAt_of_mem h₀ (by omega : i < p.length)
  obtain ⟨b₁, hb₁⟩ := byteAt_of_mem (by omega) (by omega : i + 1 < p.length)
  obtain ⟨b₂, hb₂⟩ := byteAt_of_mem (by omega) (by omega : i + 2 < p.length)
  obtain ⟨b₃, hb₃⟩ := byteAt_of_mem (by omega) h₁
  exact ⟨b₀ ++ b₁ ++ b₂ ++ b₃, by simp [extractLong, hb₀, hb₁, hb₂, hb₃, bind, Except.bind, pure,
    Except.pure]⟩

theorem extractShort_of_mem {p : List Byte} {i : Int} (h₀ : 0 ≤ i) (h₁ : i + 1 < p.length) :
    ∃ a, extractShort p i = .ok a := by
  obtain ⟨b₀, hb₀⟩ := byteAt_of_mem h₀ (by omega : i < p.length)
  obtain ⟨b₁, hb₁⟩ := byteAt_of_mem (by omega) h₁
  exact ⟨b₀ ++ b₁, by simp [extractShort, hb₀, hb₁, bind, Except.bind, pure, Except.pure]⟩

/-- A load from a buffer faults exactly when it passes the length test at a negative offset,
or meets an empty buffer. -/
theorem load_buffer_fault_iff {p : List Byte} {buflen : Word} (k : Word) {short : Bool}
    {buffer : List Byte → Except Fault Word}
    {chain : List Byte → List (List Byte) → Except Fault (Option Word)}
    (hin : short = false → 0 ≤ k.toInt → buflen ≠ 0 ∧ ∃ a, buffer p = .ok a)
    (hneg : k.toInt < 0 → ∃ e, buffer p = .error e) :
    (∃ e, load (.buffer p) buflen short buffer chain = .error e) ↔
      ¬ LoadOk buflen k (short = false) := by
  unfold load LoadOk
  cases short with
  | true => by_cases h₀ : buflen = 0#32 <;> simp [h₀]
  | false =>
    by_cases hk : 0 ≤ k.toInt
    · obtain ⟨hb, a, ha⟩ := hin rfl hk
      simpa [ha, hk, Except.map] using hb
    · obtain ⟨e, he⟩ := hneg (by omega)
      simp [he, hk, Except.map]

section Loads

variable {p : List Byte} {buflen k : Word}

/-- An offset that passes the length test, and is not negative, leaves `size` bytes. -/
theorem toInt_add_le_of_passes (size : ℕ) (hp : p.length = buflen.toNat) (h : size < 2 ^ 31)
    (hk : 0 ≤ k.toInt) (hs : ¬ buflen < k + BitVec.ofNat 32 size) :
    k.toInt + size ≤ p.length := by
  rw [BitVec.not_lt, BitVec.le_def, BitVec.toNat_add, BitVec.toNat_ofNat] at hs
  have := k.isLt
  rw [BitVec.toInt_eq_toNat_cond] at hk ⊢
  split at hk <;> rename_i hlt
  · rw [if_pos hlt]
    omega
  · omega

theorem ldWord_fault_iff (hp : p.length = buflen.toNat) :
    (∃ e, ldWord (.buffer p) buflen k = .error e) ↔ ¬ LoadOk buflen k (k + 4 ≤ buflen) := by
  refine (load_buffer_fault_iff k ?_ ?_).trans ?_
  · intro hs hk
    have hle := toInt_add_le_of_passes 4 hp (by decide) hk (of_decide_eq_false hs)
    exact ⟨by rintro rfl; simp at hp; simp [hp] at hle; omega, extractLong_of_mem hk (by omega)⟩
  · intro hk
    exact ⟨.packet, by simp [extractLong, byteAt_of_neg hk, bind, Except.bind]⟩
  · simp [LoadOk]

theorem ldHalf_fault_iff (hp : p.length = buflen.toNat) (checkErr : Bool) :
    (∃ e, ldHalf checkErr (.buffer p) buflen k = .error e) ↔
      ¬ LoadOk buflen k (k + 2 ≤ buflen) := by
  refine (load_buffer_fault_iff k ?_ ?_).trans ?_
  · intro hs hk
    have hle := toInt_add_le_of_passes 2 hp (by decide) hk (of_decide_eq_false hs)
    obtain ⟨a, ha⟩ := extractShort_of_mem hk (by omega : k.toInt + 1 < p.length)
    exact ⟨by rintro rfl; simp at hp; simp [hp] at hle; omega, _, by rw [ha]; rfl⟩
  · intro hk
    exact ⟨.packet, by simp [extractShort, byteAt_of_neg hk, bind, Except.bind]⟩
  · simp [LoadOk]

theorem ldByte_fault_iff (hp : p.length = buflen.toNat) (ext : Byte → Word) :
    (∃ e, ldByte ext (.buffer p) buflen k = .error e) ↔ ¬ LoadOk buflen k (k < buflen) := by
  refine (load_buffer_fault_iff k ?_ ?_).trans ?_
  · intro hs hk
    have hlt : k.toInt < p.length := by
      have := of_decide_eq_false hs
      rw [BitVec.not_le, BitVec.lt_def] at this
      rw [BitVec.toInt_eq_toNat_cond] at hk ⊢
      split at hk <;> rename_i hlt
      · rw [if_pos hlt]
        omega
      · omega
    obtain ⟨a, ha⟩ := byteAt_of_mem hk hlt
    exact ⟨by rintro rfl; simp at hp; simp [hp] at hlt; omega, _, by rw [ha]; rfl⟩
  · intro hk
    exact ⟨.packet, by simp [byteAt_of_neg hk, bind, Except.bind]⟩
  · simp [LoadOk]

end Loads

/-! ## One instruction -/

theorem memIndex_eq_none_iff {k : Word} :
    memIndex k = none ↔ ¬ (0 ≤ k.toInt ∧ k.toInt < BPF_MEMWORDS) := by
  have hw : BPF_MEMWORDS = 16 := rfl
  unfold memIndex
  by_cases h₀ : 0 ≤ k.toInt
  · by_cases h₁ : k.toInt.toNat < BPF_MEMWORDS
    · simp [h₀, h₁]
      omega
    · simp [h₀, h₁]
      omega
  · simp [h₀]

theorem loaded_fault_iff {s : State} {v : Except Fault (Option Word)} {put : Word → State} :
    (∃ e, s.loaded v put = .fault e) ↔ ∃ e, v = .error e := by
  rcases v with e | _ | a <;> simp [State.loaded, State.cont]

/-- A checked instruction, run on a packet of `buflen` bytes in one buffer, faults exactly
when its access is not covered. -/
theorem exec_fault_iff {len : Int} {p : List Byte} (wirelen : Word) {buflen : Word} {i : BpfInsn}
    {s : State} {o : Op} (hp : p.length = buflen.toNat) (hi : Checked len s.pc i o) :
    (∃ e, exec (.buffer p) wirelen buflen i s o = .fault e) ↔ ¬ AccessOk buflen i s o := by
  cases o with
  | ldWAbs | ldWInd => simp only [exec, loaded_fault_iff, AccessOk, ldWord_fault_iff hp]
  | ldHAbs | ldHInd => simp only [exec, loaded_fault_iff, AccessOk, ldHalf_fault_iff hp]
  | ldBAbs | ldBInd | ldxMshB => simp only [exec, loaded_fault_iff, AccessOk, ldByte_fault_iff hp]
  | ldMem | st =>
    have hk := hi.mem (by simp)
    cases hm : memIndex i.k with
    | none => exact absurd hk (memIndex_eq_none_iff.mp hm)
    | some j => simp [exec, hm, State.cont, AccessOk]
  | ldxMem | stx =>
    cases hm : memIndex i.k with
    | none => simpa [exec, hm, AccessOk] using memIndex_eq_none_iff.mp hm
    | some j =>
      have : ¬ memIndex i.k = none := by simp [hm]
      rw [memIndex_eq_none_iff, not_not] at this
      simpa [exec, hm, State.cont, AccessOk] using this
  | alu op src =>
    cases op <;> cases src <;> simp only [exec, State.cont, AccessOk]
    case div.k => simp [show ¬ i.k = 0#32 from hi.div rfl]
    case div.x => split <;> simp
    all_goals simp
  | _ => simp [exec, State.cont, AccessOk]

/-- Where an instruction that goes on leaves the program counter. -/
theorem exec_next {p : Packet} {wirelen buflen : Word} {i : BpfInsn} {s t : State} {o : Op}
    (h : exec p wirelen buflen i s o = .next t) :
    ¬ o.IsRet ∧
      ((o = .ja ∧ t.pc = s.pc + 1 + i.k.toInt) ∨
        ((∃ c src, o = .jmp c src) ∧
          (t.pc = s.pc + 1 + i.jt.toNat ∨ t.pc = s.pc + 1 + i.jf.toNat)) ∨
        t.pc = s.pc + 1) := by
  have hload : ∀ v put, s.loaded v put = .next t → t.pc = s.pc + 1 := by
    rintro (e | _ | a) put h
    · cases h
    · cases h
    · cases h
      rfl
  cases o with
  | retK | retA => cases h
  | ja =>
    cases h
    exact ⟨by simp [Op.IsRet], .inl ⟨rfl, by dsimp only; omega⟩⟩
  | jmp c src =>
    cases h
    refine ⟨by simp [Op.IsRet], .inr (.inl ⟨⟨c, src, rfl⟩, ?_⟩)⟩
    dsimp only
    split
    · left
      omega
    · right
      omega
  | alu op src =>
    refine ⟨by simp [Op.IsRet], .inr (.inr ?_)⟩
    cases op <;> cases src <;> simp only [exec, State.cont] at h
    all_goals first
      | (cases h; rfl)
      | (split at h <;> cases h; rfl)
  | ldWAbs | ldHAbs | ldBAbs | ldWInd | ldHInd | ldBInd | ldxMshB =>
    exact ⟨by simp [Op.IsRet], .inr (.inr (hload _ _ h))⟩
  | ldMem | ldxMem | st | stx =>
    refine ⟨by simp [Op.IsRet], .inr (.inr ?_)⟩
    cases hm : memIndex i.k with
    | none => simp [exec, hm] at h
    | some j =>
      simp only [exec, hm, State.cont, Outcome.next.injEq] at h
      rw [← h]
  | _ =>
    cases h
    exact ⟨by simp [Op.IsRet], .inr (.inr rfl)⟩

/-! ## The run -/

section Run

variable {f : List BpfInsn} {p : List Byte} (wirelen : Word) {buflen : Word}

/-- One turn of the loop inside an accepted program: with its access covered and a jump
forward, it returns or moves on inside the program. -/
theorem step_progress (hf : bpfValidate f = true) (hp : p.length = buflen.toNat) {s : State}
    (hpc : 0 ≤ s.pc ∧ s.pc < f.length) (hacc : AccessesOk f buflen s) (hjmp : JumpOk f s) :
    (∃ v, step f (.buffer p) wirelen buflen s = .ret v) ∨
      ∃ t, step f (.buffer p) wirelen buflen s = .next t ∧ s.pc < t.pc ∧ t.pc < f.length := by
  obtain ⟨i, hi⟩ := fetch_eq_some_iff.mpr hpc
  cases ho : decode i.code with
  | none => exact .inl ⟨0, step_of_decode_none hi ho⟩
  | some o =>
    obtain ⟨hchk, hlast⟩ := checked_of_bpfValidate hf hi ho
    rw [step_eq_exec hi ho]
    cases hx : exec (.buffer p) wirelen buflen i s o with
    | ret v => exact .inl ⟨v, rfl⟩
    | fault e => exact absurd (hacc i o hi ho) ((exec_fault_iff wirelen hp hchk).mp ⟨e, hx⟩)
    | next t =>
      right
      refine ⟨t, rfl, ?_⟩
      obtain ⟨hret, ⟨rfl, ht⟩ | ⟨⟨c, src, rfl⟩, ht⟩ | ht⟩ := exec_next hx
      · obtain ⟨hk₀, hk₁⟩ := hjmp i hi ho
        have hlt := hchk.ja rfl
        rw [addInt, Int.bmod_eq_of_le (by omega) (by omega)] at hlt
        omega
      · have := hchk.jt c src rfl
        have := hchk.jf c src rfl
        omega
      · have := hlast.resolve_right hret
        omega

/-- The run of an accepted program on a packet of `buflen` bytes in one buffer, when every
`BPF_JA` it makes goes forward: it returns a value, without a fault on the way, if and only if
every access it makes is covered. -/
theorem bpfFilter_safe_iff (hf : bpfValidate f = true) (hp : p.length = buflen.toNat)
    (A X : Word) (mem : Fin BPF_MEMWORDS → Word)
    (hjmp : ∀ s, Reached (step f (.buffer p) wirelen buflen) ⟨0, A, X, mem⟩ s → JumpOk f s) :
    ((∃ n v, bpfFilter (some f) (.buffer p) wirelen buflen A X mem n = .ret v) ∧
        ∀ n e, bpfFilter (some f) (.buffer p) wirelen buflen A X mem n ≠ .fault e) ↔
      ∀ s, Reached (step f (.buffer p) wirelen buflen) ⟨0, A, X, mem⟩ s →
        AccessesOk f buflen s := by
  constructor
  · rintro ⟨⟨n, v, hv⟩, -⟩ s hs i o hi ho
    by_contra hacc
    obtain ⟨hchk, -⟩ := checked_of_bpfValidate hf hi ho
    obtain ⟨e, he⟩ := (exec_fault_iff wirelen hp hchk).mpr hacc
    exact Machine.step_ne_fault_of_run_ret hv hs e
      (by rw [step_eq_exec hi ho, he])
  · intro hacc
    have hlen : 0 < f.length := by
      cases f with
      | nil => simp [bpfValidate] at hf
      | cons i f => simp
    -- the invariant of the run: the program counter stays inside the program
    have hpc : ∀ s, Reached (step f (.buffer p) wirelen buflen) ⟨0, A, X, mem⟩ s →
        0 ≤ s.pc ∧ s.pc < f.length := by
      intro s hs
      refine hs.invariant (P := fun s => 0 ≤ s.pc ∧ s.pc < (f.length : Int))
        ⟨by simp, by simpa using hlen⟩ ?_
      intro t u ht hin hu
      obtain ⟨v, hv⟩ | ⟨u', hu', hlt, hlen⟩ :=
        step_progress wirelen hf hp hin (hacc t ht) (hjmp t ht)
      · rw [hu] at hv
        cases hv
      · obtain rfl : u = u' := by
          rw [hu] at hu'
          injection hu'
        exact ⟨by omega, hlen⟩
    obtain ⟨n, v, hv⟩ := Machine.exists_ret_of_measure (step f (.buffer p) wirelen buflen)
      (s := ⟨0, A, X, mem⟩) (fun s => (f.length - s.pc).toNat) fun t ht => by
        obtain hret | ⟨u, hu, hlt, hlen⟩ := step_progress wirelen hf hp (hpc t ht) (hacc t ht) (hjmp t ht)
        · exact .inl hret
        · exact .inr ⟨u, hu, by omega⟩
    exact ⟨⟨n, v, hv⟩, fun k e => Machine.run_ne_fault_of_run_ret hv k e⟩

end Run

theorem mem_of_fetch {f : List BpfInsn} {pc : Int} {i : BpfInsn} (h : fetch f pc = some i) :
    i ∈ f := by
  unfold fetch at h
  split at h
  · exact List.mem_of_getElem? h
  · cases h

/-- The byte at offset 0 of a one-byte packet, returned. -/
theorem bpfFilter_safe_iff_first_byte :
    ((∃ n v, bpfFilter (some [⟨Op.ldBAbs.code, 0, 0, 0⟩, ⟨Op.retA.code, 0, 0, 0⟩])
          (.buffer [7]) 1 1 0 0 (fun _ => 0) n = .ret v) ∧
        ∀ n e, bpfFilter (some [⟨Op.ldBAbs.code, 0, 0, 0⟩, ⟨Op.retA.code, 0, 0, 0⟩])
          (.buffer [7]) 1 1 0 0 (fun _ => 0) n ≠ .fault e) := by
  refine (bpfFilter_safe_iff 1 (by decide) (by decide) 0 0 (fun _ => 0) ?_).mpr ?_
  · intro s _ i hi ho
    have := mem_of_fetch hi
    simp only [List.mem_cons, List.not_mem_nil, or_false] at this
    obtain rfl | rfl := this <;> exact absurd ho (by decide)
  · intro s _ i o hi ho
    have := mem_of_fetch hi
    simp only [List.mem_cons, List.not_mem_nil, or_false] at this
    obtain rfl | rfl := this <;> rw [decode_code] at ho <;> cases ho
    · exact ⟨by decide, fun _ => by decide⟩
    · trivial

/-- `BPF_LDX|BPF_MEM` is not checked: an accepted program reads the scratch word 16. -/
theorem bpfValidate_unsafe :
    ¬ ∀ (f : List BpfInsn) (p : List Byte) (wirelen buflen A X : Word)
      (mem : Fin BPF_MEMWORDS → Word), 0 < f.length → bpfValidate f = true →
      p.length = buflen.toNat →
      (∃ n v, bpfFilter (some f) (.buffer p) wirelen buflen A X mem n = .ret v) ∧
        ∀ n e, bpfFilter (some f) (.buffer p) wirelen buflen A X mem n ≠ .fault e := by
  intro h
  have hsafe := h [⟨Op.ldxMem.code, 0, 0, 16⟩, ⟨Op.retK.code, 0, 0, 0⟩] [7] 1 1 0 0 (fun _ => 0)
    (by decide) (by decide) (by decide)
  exact hsafe.2 1 .mem rfl

end Bpf
