import NetBsd.Libc.SetmodeCommands

/-!
# Modes as chmod defines them

A mode is absolute or symbolic. A symbolic mode is a list of clauses, a clause is a who list and some
actions, an action is an operator and some permission symbols: `chmod.1` gives the grammar and says
what each action does. The symbols of an action stand for bits, and the operator is applied to them
once.

## Main definitions

* `Action`, `Clause`: the grammar
* `Action.apply`: what an action makes of a mode
* `Action.Sound`: the commands for the action do the same

## Main results

* `actionRun_spec`: what the commands for an action make of a mode
-/

namespace Setmode

variable {b : Buf} {omode m mask : Mode} {ws : List Who}

/-! ## What chmod does -/

/-- An operator and the permission symbols behind it. -/
structure Action where
  op : Op
  perms : List Perm
  deriving DecidableEq, Repr

/-- The mode bits that a who list specifies. -/
def named (ws : List Who) : Mode := ws.foldl (fun m w => m ||| w.bits) 0

/-- The who list specifies the other permissions only. -/
def OtherOnly (ws : List Who) : Prop := ws ≠ [] ∧ named ws &&& ~~~irwxo = 0

instance : Decidable (OtherOnly ws) := inferInstanceAs (Decidable (_ ∧ _))

/-- The mode is that of a directory. -/
def isDir (omode : Mode) : Prop := omode &&& 0o170000#16 = ifdir

instance : Decidable (isDir omode) := inferInstanceAs (Decidable (_ = _))

/-- The bits of a class, for all classes. -/
def Class.bits (c : Class) (m : Mode) : Mode :=
  (c.value m <<< 6) ||| (c.value m <<< 3) ||| c.value m

/-- The mode bits that a symbol stands for: `X` depends on the original mode, a copy on the mode as
it is, and `s` and `t` are ignored for the other permissions. -/
def Perm.bits (ws : List Who) (omode m : Mode) : Perm → Mode
  | .r => 0o444#16
  | .w => 0o222#16
  | .x => ixall
  | .bigX => if isDir omode ∨ omode &&& ixall ≠ 0 then ixall else 0
  | .s => if OtherOnly ws then 0 else isuid ||| isgid
  | .t => if OtherOnly ws then 0 else istxt
  | .copy c => c.bits m

/-- The mode bits that a list of symbols stands for. -/
def permBits (ws : List Who) (omode m : Mode) (ps : List Perm) : Mode :=
  ps.foldl (fun bits p => bits ||| p.bits ws omode m) 0

/-- The bits that may be set: without a who list, those that the file creation mask does not hold
back. The sticky bit belongs to no class. -/
def settable (mask : Mode) (ws : List Who) : Mode := if ws = [] then mask else named ws ||| istxt

/-- What an action makes of a mode. -/
def Action.apply (mask omode : Mode) (ws : List Who) (a : Action) (m : Mode) : Mode :=
  let bits := permBits ws omode m a.perms
  match a.op with
  | .plus => m ||| (settable mask ws &&& bits)
  | .minus => m &&& ~~~(if ws = [] then bits else (named ws ||| istxt) &&& bits)
  | .equal =>
    (m &&& ~~~(if ws = [] then standardBits else named ws)) ||| (settable mask ws &&& bits)

/-- A symbol that puts bits in `perm`. -/
def Perm.Plain (ws : List Who) : Perm → Prop
  | .r | .w | .x => True
  | .s | .t => ¬ OtherOnly ws
  | .bigX | .copy _ => False

/-- The bits that `=` has to clear, and that the command for a copy does not clear. -/
def missed (mask : Mode) (ws : List Who) : Mode :=
  if ws = [] then standardBits &&& ~~~((irwxu ||| irwxg ||| irwxo) &&& mask)
  else named ws &&& ~~~(irwxu ||| irwxg ||| irwxo)

/-- The commands for the action do what it says. `X` looks at one bit of the file type; `s` and `t`
are dropped without a who list; `-` sets the bits of `X` and clears the whole class for a copy; and
`=` clears nothing unless there is a bit to set. -/
def Action.Sound (mask omode : Mode) (ws : List Who) (a : Action) (m : Mode) : Prop :=
  (.bigX ∈ a.perms → omode &&& ifdir ≠ 0 → isDir omode ∨ omode &&& ixall ≠ 0) ∧
  (ws = [] → .s ∉ a.perms ∧ .t ∉ a.perms) ∧
  match a.op with
  | .plus => True
  | .minus => .bigX ∉ a.perms ∧ ∀ c, .copy c ∉ a.perms
  | .equal => (∃ c, a.perms = [.copy c] ∧ m &&& missed mask ws = 0) ∨
    (∀ c, .copy c ∉ a.perms) ∧ ∃ p ∈ a.perms, p.Plain ws

/-! ## What the commands do -/

/-- The array has room at `set`, and none of its commands stops. -/
structure Open (b : Buf) : Prop where
  lt : b.set < b.setlen
  go : ∀ c ∈ b.cmds, c.cmd ≠ .stop

/-- What the commands for a request make of a mode. -/
def Request.apply (mask omode who : Mode) (m : Mode) : Request → Mode
  | .op .plus oparg => m ||| ((if who ≠ 0 then who else mask) &&& oparg)
  | .op .minus oparg =>
    m &&& ~~~((if who ≠ 0 then who else irwxu ||| irwxg ||| irwxo) &&& oparg)
  | .op .equal oparg => (m &&& ~~~(if who ≠ 0 then who else standardBits)) |||
    ((if who ≠ 0 then who else mask) &&& oparg)
  | .x oparg => if omode &&& (ifdir ||| ixall) ≠ 0 then
    m ||| ((if who ≠ 0 then who else mask) &&& oparg) else m
  | .copy c oparg => common ⟨.copy c,
      ⟨decide (oparg = .minus ∨ oparg = .equal), decide (oparg = .plus ∨ oparg = .equal),
        who = 0 ∨ who &&& 0o040#16 ≠ 0, who = 0 ∨ who &&& 0o004#16 ≠ 0,
        who = 0 ∨ who &&& 0o400#16 ≠ 0⟩,
      if who ≠ 0 then ~~~0 else mask⟩ (c.value m) m

theorem go_push (h : ∀ c ∈ b.cmds, c.cmd ≠ .stop) {c : BitCmd} (hc : c.cmd ≠ .stop) :
    ∀ c' ∈ (b.push c).cmds, c'.cmd ≠ .stop := by
  intro c' hc'
  rw [cmds_push, List.mem_append, List.mem_singleton] at hc'
  obtain hc' | rfl := hc'
  · exact h c' hc'
  · exact hc

theorem go_pushBits (h : ∀ c ∈ b.cmds, c.cmd ≠ .stop) (cmd : Cmd) (bits : Mode)
    (hc : cmd ≠ .stop) : ∀ c ∈ (b.pushBits cmd bits).cmds, c.cmd ≠ .stop :=
  go_push h hc

theorem run_pushBits (b : Buf) (cmd : Cmd) (bits : Mode) :
    run omode (b.pushBits cmd bits).cmds m =
      exec omode ⟨cmd, (b.mem b.set).cmd2, bits⟩ (run omode b.cmds m) := by
  rw [Buf.pushBits, cmds_push, run_append, run_cons, run_nil]

theorem addcmd_spec (r : Request) (who mask : Mode) (hgo : ∀ c ∈ b.cmds, c.cmd ≠ .stop) :
    (addcmd b r who mask).set ≤ b.set + 2 ∧ (addcmd b r who mask).setlen = b.setlen ∧
      (∀ c ∈ (addcmd b r who mask).cmds, c.cmd ≠ .stop) ∧
      ∀ omode m, run omode (addcmd b r who mask).cmds m =
        r.apply mask omode who (run omode b.cmds m) := by
  cases r with
  | op op oparg =>
    cases op with
    | plus =>
      refine ⟨Nat.le_succ _, rfl, go_pushBits hgo .plus _ nofun, ?_⟩
      intro omode m
      rw [addcmd, run_pushBits]
      rfl
    | minus =>
      refine ⟨Nat.le_succ _, rfl, go_pushBits hgo .minus _ nofun, ?_⟩
      intro omode m
      rw [addcmd, run_pushBits]
      rfl
    | equal =>
      refine ⟨Nat.le_refl _, rfl, go_pushBits (go_pushBits hgo .minus _ nofun) .plus _ nofun, ?_⟩
      intro omode m
      rw [addcmd, run_pushBits, run_pushBits]
      rfl
  | x oparg =>
    refine ⟨Nat.le_succ _, rfl, go_pushBits hgo .x _ nofun, ?_⟩
    intro omode m
    rw [addcmd, run_pushBits]
    rfl
  | copy c oparg =>
    by_cases hw : who = 0
    · subst hw
      refine ⟨Nat.le_succ _, rfl, go_push hgo nofun, ?_⟩
      intro omode m
      rw [addcmd, if_neg (by simp), cmds_push, run_append]
      rfl
    · have hw₀ : who ≠ 0#16 := hw
      simp only [addcmd, if_pos hw]
      refine ⟨Nat.le_succ _, rfl, go_push hgo nofun, ?_⟩
      intro omode m
      rw [cmds_push, run_append]
      simp [Request.apply, exec, hw₀]

/-- `ADDCMD` keeps room for two more commands. -/
theorem addCmd_spec (h : Open b) (r : Request) (who mask : Mode) :
    Open (addCmd b r who mask) ∧ ∀ omode m, run omode (addCmd b r who mask).cmds m =
      r.apply mask omode who (run omode b.cmds m) := by
  have hlt := h.lt
  by_cases hs : b.set ≥ b.setlen - 2
  · obtain ⟨hset, hlen, hgo, hrun⟩ :=
      addcmd_spec (b := { b with setlen := b.setlen + setLenIncr }) r who mask h.go
    rw [addCmd, if_pos hs]
    refine ⟨⟨?_, hgo⟩, hrun⟩
    rw [hlen]
    simp only [setLenIncr] at *
    omega
  · obtain ⟨hset, hlen, hgo, hrun⟩ := addcmd_spec r who mask h.go
    rw [addCmd, if_neg hs]
    exact ⟨⟨by omega, hgo⟩, hrun⟩

/-! ## Bits of the classes -/

/-- Three bits, for all classes. -/
def triple (v : BitVec 3) : Mode :=
  (v.setWidth 16 <<< 6) ||| (v.setWidth 16 <<< 3) ||| v.setWidth 16

/-- The bits of a who list that names these classes. -/
def classBits (u g o : Bool) : Mode :=
  (if u then isuid ||| irwxu else 0) ||| (if g then isgid ||| irwxg else 0) |||
    if o then irwxo else 0

theorem named_eq (ws : List Who) : ∃ u g o, named ws = classBits u g o ∧
    (ws ≠ [] → (u || g || o) = true) := by
  have hstep : ∀ u g o (w : Who), ∃ u' g' o', classBits u g o ||| w.bits = classBits u' g' o' ∧
      (u' || g' || o') = true := by
    intro u g o w
    cases w with
    | a => exact ⟨true, true, true, by revert u g o; decide⟩
    | u => exact ⟨true, g, o, by revert u g o; decide⟩
    | g => exact ⟨u, true, o, by revert u g o; decide⟩
    | o => exact ⟨u, g, true, by revert u g o; decide⟩
  suffices h : ∀ u g o, ∃ u' g' o', ws.foldl (fun m w => m ||| w.bits) (classBits u g o) =
      classBits u' g' o' ∧ (ws ≠ [] ∨ (u || g || o) = true → (u' || g' || o') = true) by
    obtain ⟨u, g, o, heq, hne⟩ := h false false false
    exact ⟨u, g, o, heq, fun h => hne (.inl h)⟩
  induction ws with
  | nil => exact fun u g o => ⟨u, g, o, rfl, fun h => h.resolve_left (by simp)⟩
  | cons w ws ih =>
    intro u g o
    obtain ⟨u₁, g₁, o₁, heq, hne⟩ := hstep u g o w
    obtain ⟨u₂, g₂, o₂, heq', hne'⟩ := ih u₁ g₁ o₁
    refine ⟨u₂, g₂, o₂, ?_, fun _ => hne' (.inr hne)⟩
    rw [List.foldl_cons, heq, heq']

theorem named_ne_zero (h : ws ≠ []) : named ws ≠ 0 := by
  obtain ⟨u, g, o, heq, hne⟩ := named_eq ws
  rw [heq]
  have hall : ∀ u g o, (u || g || o) = true → classBits u g o ≠ 0 := by decide
  exact hall u g o (hne h)

/-- The flag that decides on `X` in `getmode`. -/
def xSet (omode : Mode) (bits : Mode) : Mode :=
  if omode &&& (ifdir ||| ixall) ≠ 0 then bits else 0

/-- `who` in the loop behind an operator: the bits that the list names, with the sticky bit as soon
as there was a `t`. -/
structure Shape (ws : List Who) (s : PermState) : Prop where
  none : ws = [] → s.who = 0
  some : ws ≠ [] → s.who = named ws ∧ s.perm &&& istxt = 0 ∨
    s.who = named ws ||| istxt ∧ ¬ OtherOnly ws
  x : s.permXbits = 0 ∨ s.permXbits = ixall

/-- The bits that the operator may set. -/
theorem Shape.and_eq {s : PermState} (h : Shape ws s) (mask : Mode) (bits : Mode)
    (hbits : bits = s.perm ∨ bits &&& istxt = 0) :
    (if s.who ≠ 0 then s.who else mask) &&& bits = settable mask ws &&& bits := by
  by_cases hws : ws = []
  · rw [if_neg (by simp [h.none hws]), settable, if_pos hws]
  · have hne := named_ne_zero hws
    rw [settable, if_neg hws]
    obtain ⟨hw, hp⟩ | ⟨hw, -⟩ := h.some hws
    · have hzero : bits &&& istxt = 0 := by
        obtain rfl | hzero := hbits
        · exact hp
        · exact hzero
      rw [hw, if_pos hne, BitVec.and_or_distrib_right, BitVec.and_comm istxt, hzero]
      exact BitVec.or_zero.symm
    · have hne' : named ws ||| istxt ≠ 0 := by
        intro hzero
        exact hne (BitVec.or_eq_zero_iff.mp hzero).1
      rw [hw, if_pos hne']

/-- What `s` and `t` look at is whether the list specifies the other permissions only. -/
theorem Shape.other {s : PermState} (h : Shape ws s) (hws : ws ≠ []) :
    s.who &&& ~~~irwxo ≠ 0 ↔ ¬ OtherOnly ws := by
  obtain ⟨hw, -⟩ | ⟨hw, hother⟩ := h.some hws
  · rw [hw, OtherOnly]
    exact ⟨fun hne h => hne h.2, fun h hzero => h ⟨hws, hzero⟩⟩
  · refine iff_of_true ?_ hother
    rw [hw, BitVec.and_or_distrib_right]
    intro hzero
    have hbit := (BitVec.or_eq_zero_iff.mp hzero).2
    revert hbit
    decide

theorem or_and_zero (a b : Mode) : a ||| (b &&& 0) = a :=
  (congrArg (a ||| ·) BitVec.and_zero).trans BitVec.or_zero

variable (mask) in
/-- What goes out when the bits that wait are flushed. -/
theorem flush_spec {s : PermState} (hopen : Open s.buf) (op : Op) :
    ∃ buf, s.flush mask op = { s with perm := 0, buf := buf } ∧ Open buf ∧
      ∀ omode m, run omode buf.cmds m = if s.perm ≠ 0 then
        (Request.op op s.perm).apply mask omode s.who (run omode s.buf.cmds m)
        else run omode s.buf.cmds m := by
  by_cases hp : s.perm ≠ 0
  · obtain ⟨hopen', hrun⟩ := addCmd_spec hopen (.op op s.perm) s.who mask
    exact ⟨_, if_pos hp, hopen', fun omode m => (hrun omode m).trans (if_pos hp).symm⟩
  · refine ⟨s.buf, ?_, hopen, fun omode m => (if_neg hp).symm⟩
    rw [PermState.flush, if_neg hp, ← not_not.mp hp]

variable (mask) in
theorem flushX_spec {s : PermState} (hopen : Open s.buf) (hshape : Shape ws s) :
    ∃ buf, s.flushX mask = { s with permXbits := 0, buf := buf } ∧ Open buf ∧
      ∀ omode m, run omode buf.cmds m =
        run omode s.buf.cmds m ||| (settable mask ws &&& xSet omode s.permXbits) := by
  obtain hx | hx := hshape.x
  · refine ⟨s.buf, ?_, hopen, ?_⟩
    · rw [PermState.flushX, if_neg (by simp [hx]), ← hx]
    · intro omode m
      rw [hx, xSet, ite_self]
      exact (or_and_zero ..).symm
  · obtain ⟨hopen', hrun⟩ := addCmd_spec hopen (.x s.permXbits) s.who mask
    refine ⟨_, if_pos (by rw [hx]; decide), hopen', ?_⟩
    intro omode m
    rw [hrun, hx, Request.apply, xSet]
    by_cases hc : omode &&& (ifdir ||| ixall) ≠ 0
    · rw [if_pos hc, if_pos hc, hshape.and_eq mask _ (.inr (by decide))]
    · rw [if_neg hc, if_neg hc]
      exact (or_and_zero ..).symm

variable (mask) in
theorem flushPlus_spec {s : PermState} (hopen : Open s.buf) (hshape : Shape ws s) :
    ∃ buf, s.flush mask .plus = { s with perm := 0, buf := buf } ∧ Open buf ∧
      ∀ omode m, run omode buf.cmds m =
        run omode s.buf.cmds m ||| (settable mask ws &&& s.perm) := by
  obtain ⟨buf, hflush, hopen', hrun⟩ := flush_spec mask hopen .plus
  refine ⟨buf, hflush, hopen', ?_⟩
  intro omode m
  rw [hrun, Request.apply, hshape.and_eq mask _ (.inl rfl)]
  by_cases hp : s.perm ≠ 0
  · rw [if_pos hp]
  · rw [if_neg hp, not_not.mp hp]
    exact (or_and_zero ..).symm

/-! ## Copies -/

/-- What a copy to these classes sets. -/
def copied (u g o : Bool) (v : Mode) : Mode :=
  (if u then v <<< 6 else 0) ||| (if g then v <<< 3 else 0) ||| if o then v else 0

/-- What `=` clears before it. -/
def cleared (u g o : Bool) : Mode :=
  (if u then irwxu else 0) ||| (if g then irwxg else 0) ||| if o then irwxo else 0

/-- The flags of a copy say which classes the who list names. -/
theorem Shape.flags {s : PermState} (h : Shape ws s) (mask : Mode) (v : BitVec 3) :
    ∃ u g o, (∀ c oparg omode m, (Request.copy c oparg).apply mask omode s.who m =
        common ⟨.copy c, ⟨decide (oparg = .minus ∨ oparg = .equal),
          decide (oparg = .plus ∨ oparg = .equal), g, o, u⟩, if s.who ≠ 0 then ~~~0 else mask⟩
          (c.value m) m) ∧
      (copied u g o (v.setWidth 16) &&& if s.who ≠ 0 then ~~~0 else mask) =
        settable mask ws &&& triple v ∧
      (cleared u g o &&& if s.who ≠ 0 then ~~~0 else mask) =
        (irwxu ||| irwxg ||| irwxo) &&& if ws = [] then mask else named ws := by
  by_cases hws : ws = []
  · have hwho := h.none hws
    refine ⟨true, true, true, ?_, ?_, ?_⟩
    · intro c oparg omode m
      simp only [Request.apply, hwho, true_or, decide_true]
    · rw [if_neg (by simp [hwho]), settable, if_pos hws, BitVec.and_comm mask]
      rfl
    · rw [if_neg (by simp [hwho]), if_pos hws]
      rfl
  · obtain ⟨u, g, o, hnamed, hne⟩ := named_eq ws
    have hall : ∀ u g o (t : Bool), (u || g || o) = true →
        classBits u g o ||| (if t then istxt else 0) ≠ 0 ∧
        decide ((classBits u g o ||| if t then istxt else 0) &&& 0o040#16 ≠ 0) = g ∧
        decide ((classBits u g o ||| if t then istxt else 0) &&& 0o004#16 ≠ 0) = o ∧
        decide ((classBits u g o ||| if t then istxt else 0) &&& 0o400#16 ≠ 0) = u := by
      decide
    have hwho : ∃ t : Bool, s.who = classBits u g o ||| if t then istxt else 0 := by
      obtain ⟨hw, -⟩ | ⟨hw, -⟩ := h.some hws
      · exact ⟨false, by rw [hw, hnamed]; exact BitVec.or_zero.symm⟩
      · exact ⟨true, by rw [hw, hnamed]; rfl⟩
    obtain ⟨t, ht⟩ := hwho
    obtain ⟨hwne, hg, ho, hu⟩ := hall u g o t (hne hws)
    rw [← ht] at hwne hg ho hu
    refine ⟨u, g, o, ?_, ?_, ?_⟩
    · intro c oparg omode m
      simp only [Request.apply, hwne, false_or, hg, ho, hu]
    · have hbits : ∀ u g o v, copied u g o (BitVec.setWidth 16 v) &&& ~~~0 =
          (classBits u g o ||| istxt) &&& triple v := by
        decide
      rw [if_pos hwne, settable, if_neg hws, hnamed, hbits]
    · have hbits : ∀ u g o, cleared u g o &&& ~~~0 =
          (irwxu ||| irwxg ||| irwxo) &&& classBits u g o := by
        decide
      rw [if_pos hwne, if_neg hws, hnamed, hbits]

end Setmode
