import Mathlib
import NetBsd.Lib.Assoc
import NetBsd.Lib.Fault

/-!
# The environment

`setenv`, `unsetenv` and `getenv` over the array that `environ` points to, which ends with a
null pointer. Each call of `setenv` is told which of its allocations fail.

## Main definitions

* `Setenv.Env`: `environ`, with the cells of its array
* `Setenv.findenv`, `Setenv.setenv`, `Setenv.unsetenv`: the routines
* `Setenv.valueOf`: the environment as a map from names to values
* `Setenv.Spec`: what each call does to that map
* `Setenv.Call.Ok`: an allocation does not fail where `setenv` has changed a pointer for it

## Main results

* `Setenv.step_spec`: one call, on an array with its null pointer
* `Setenv.calls_faithful`: every sequence of calls
-/

namespace Setenv

open Assoc

/-- The bytes of a string without the NUL behind them. -/
abbrev Str := List (BitVec 8)

/-- `'='` -/
def equals : BitVec 8 := 61

/-- `environ` and its array; whether an array was asked for before, and whether the array there
is one from `malloc`. -/
structure Env where
  environ : Option (List (Option Str))
  alloced : Bool := false
  owned : Bool := false

/-- `*environ` and what follows -/
def Env.cells (e : Env) : Except Fault (List (Option Str)) :=
  match e.environ with
  | none => .error .deref
  | some cells => .ok cells

/-- A name, without a `=` in it. -/
abbrev Name := { n : Str // equals ∉ n }

/-- A name up to its `=`, if there is one. -/
def cut (name : Str) : Name :=
  ⟨name.takeWhile (· ≠ equals), fun h => by simpa using List.mem_takeWhile_imp h⟩

/-- A value without a leading `=`. -/
def strip (value : Str) : Str := if value.head? = some equals then value.tail else value

/-- What a string of the environment binds a name to. -/
def binds (s : Str) (n : Name) : Option Str :=
  if s.take n.val.length = n ∧ s[n.val.length]? = some equals then
    some (s.drop (n.val.length + 1))
  else none

/-- `_findenv`: the offset of the string and the value in it. -/
def findenv (n : Name) : List (Option Str) → Except Fault (Option (ℕ × Str))
  | [] => .error .deref
  | none :: _ => .ok none
  | some s :: cells =>
    match binds s n with
    | some v => .ok (some (0, v))
    | none => do
      let found ← findenv n cells
      return found.map fun (offset, v) => (offset + 1, v)

def getenv (name : Str) (e : Env) : Except Fault (Option Str) := do
  let cells ← e.cells
  let found ← findenv (cut name) cells
  return found.map Prod.snd

/-- A new string in cell `offset`; the cell is null if there is no memory for it. -/
def place (str : Bool) (name value : Str) (offset : ℕ) (cells : List (Option Str)) (e : Env) :
    ℤ × Env :=
  if str then
    (0, { e with environ := some (cells.set offset (some ((cut name).val ++ equals :: value))) })
  else (-1, { e with environ := some (cells.set offset none) })

/-- The number of strings. -/
def count (cells : List (Option Str)) : ℕ := (cells.takeWhile Option.isSome).length

/-- An array with room for one more string; `none` where `setenv` returns -1. `realloc` is for
memory from `malloc`. -/
def newSlot (grow : Bool) (cells : List (Option Str)) (e : Env) :
    Except Fault (Option (List (Option Str)) × Env) :=
  let cnt := count cells
  if e.alloced then
    if ¬e.owned then .error .deref
    else if grow then .ok (some (cells.take (cnt + 1) ++ [none]), e)
    else .ok (none, { e with environ := none })
  else if grow then
    -- cell `cnt` is set before it is read
    .ok (some (cells.take cnt ++ [none, none]), { e with alloced := true, owned := true })
  else .ok (none, { e with alloced := true })

/-- `grow` and `str` tell whether there is memory for an array and for a string. -/
def setenv (grow str : Bool) (name value : Str) (rewrite : Bool) (e : Env) :
    Except Fault (ℤ × Env) := do
  let value := strip value
  let cells ← e.cells
  let found ← findenv (cut name) cells
  match found with
  | some (offset, c) =>
    if ¬rewrite then return (0, e)
    else if value.length ≤ c.length then
      -- old larger; copy over
      let cells := cells.modify offset (Option.map fun s => s.take (s.length - c.length) ++ value)
      return (0, { e with environ := some cells })
    else return place str name value offset cells e
  | none =>
    let (new, e) ← newSlot grow cells e
    match new with
    | none => return (-1, e)
    | some new => return place str name value (count cells) new e

/-- The inner loop of `unsetenv`: every cell takes the next one, up to the null pointer. -/
def shiftDown : List (Option Str) → Except Fault (List (Option Str))
  | _ :: none :: cells => .ok (none :: none :: cells)
  | _ :: some s :: cells => do
    let rest ← shiftDown (some s :: cells)
    return some s :: rest
  | _ => .error .deref

/-- The outer loop of `unsetenv`. -/
def unsetLoop (n : Name) : ℕ → List (Option Str) → Except Fault (List (Option Str))
  | 0, _ => .error .loop
  | fuel + 1, cells => do
    let found ← findenv n cells
    match found with
    | none => return cells
    | some (offset, _) =>
      let rest ← shiftDown (cells.drop offset)
      unsetLoop n fuel (cells.take offset ++ rest)

def unsetenv (name : Str) (e : Env) : Except Fault Env := do
  let cells ← e.cells
  let cells ← unsetLoop (cut name) (cells.length + 1) cells
  return { e with environ := some cells }

/-! ## The map -/

/-- The strings before the null pointer. -/
def strings (cells : List (Option Str)) : List Str := (cells.takeWhile Option.isSome).reduceOption

/-- The value of each name. -/
def valueOf (e : Env) : Name → Option Str := find binds (strings (e.environ.getD []))

inductive Call where
  | setenv (name value : Str) (rewrite grow str : Bool)
  | unsetenv (name : Str)
  | getenv (name : Str)

inductive Result where
  | int (r : ℤ)
  | unit
  | ptr (v : Option Str)

def step (e : Env) : Call → Except Fault (Result × Env)
  | .setenv name value rewrite grow str => do
    let (r, e) ← Setenv.setenv grow str name value rewrite e
    return (.int r, e)
  | .unsetenv name => do
    let e ← Setenv.unsetenv name e
    return (.unit, e)
  | .getenv name => do
    let v ← Setenv.getenv name e
    return (.ptr v, e)

/-- What a call makes of the map `m`. A `setenv` that fails, which takes an allocation that
does, leaves every value as it was. -/
def Spec (m m' : Name → Option Str) : Call → Result → Prop
  | .setenv name value rewrite grow str, .int r =>
    (r = 0 ∧ m' = if rewrite = false ∧ (m (cut name)).isSome then m
      else Function.update m (cut name) (some (strip value))) ∨
    (r = -1 ∧ m' = m ∧ (grow && str) = false)
  | .unsetenv name, .unit => m' = Function.update m (cut name) none
  | .getenv name, .ptr v => m' = m ∧ v = m (cut name)
  | _, _ => False

/-- For a name that has a value: there is memory for the string if that is needed. For a new
one: if an array was asked for before, there is one, and it can grow. -/
def Call.Ok (e : Env) : Call → Prop
  | .setenv name value rewrite grow str =>
    match valueOf e (cut name) with
    | some v => rewrite = true → v.length < (strip value).length → str = true
    | none => e.alloced = true → e.owned = true ∧ grow = true
  | _ => True

/-- Every call of the sequence returns, and does to the map what it should. -/
def Faithful : List Call → Env → Prop
  | [], _ => True
  | c :: calls, e =>
    ∃ r e', step e c = .ok (r, e') ∧ Spec (valueOf e) (valueOf e') c r ∧ Faithful calls e'

def AllOk : List Call → Env → Prop
  | [], _ => True
  | c :: calls, e => c.Ok e ∧ ∀ r e', step e c = .ok (r, e') → AllOk calls e'

/-- The environment a program is started with. -/
def start (strs : List Str) : Env := { environ := some (strs.map some ++ [none]) }

/-! ## Strings that bind -/

variable {s v name : Str} {n : Name} {strs : List Str} {junk cells : List (Option Str)} {e : Env}

theorem binds_eq_some : binds s n = some v ↔ s = n ++ equals :: v := by
  unfold binds
  constructor
  · intro h
    split at h
    · next hs =>
      cases h
      obtain ⟨hlt, heq⟩ := List.getElem?_eq_some_iff.mp hs.2
      calc s = s.take n.val.length ++ s.drop n.val.length := (List.take_append_drop ..).symm
        _ = n ++ s.drop n.val.length := by rw [hs.1]
        _ = n ++ s[n.val.length] :: s.drop (n.val.length + 1) := by rw [List.drop_eq_getElem_cons]
        _ = _ := congrArg (fun c => (n : Str) ++ c :: s.drop (n.val.length + 1)) heq
    · cases h
  · rintro rfl
    rw [if_pos ⟨by simp, by simp⟩]
    simp

/-- A name ends at the first `=` of the string. -/
theorem takeWhile_binding (n : Name) (v : Str) :
    ((n : Str) ++ equals :: v).takeWhile (· ≠ equals) = n := by
  rw [List.takeWhile_append_of_pos (fun a ha => by
    have : a ≠ equals := fun hae => n.2 (hae ▸ ha)
    simpa using this)]
  simp

theorem binds_oneKey : OneKey binds := by
  intro s n n' h h'
  obtain ⟨v, hv⟩ := Option.isSome_iff_exists.mp h
  obtain ⟨v', hv'⟩ := Option.isSome_iff_exists.mp h'
  apply Subtype.ext
  rw [← takeWhile_binding n v, ← takeWhile_binding n' v', ← binds_eq_some.mp hv,
    ← binds_eq_some.mp hv']

theorem binds_new (n : Name) (v : Str) : binds (n ++ equals :: v) n = some v :=
  binds_eq_some.mpr rfl

/-! ## Arrays with their null pointer -/

/-- The array holds these strings, then a null pointer. -/
def Holds (cells : List (Option Str)) (strs : List Str) : Prop :=
  ∃ junk, cells = strs.map some ++ none :: junk

theorem Holds.takeWhile (h : Holds cells strs) :
    cells.takeWhile Option.isSome = strs.map some := by
  obtain ⟨junk, rfl⟩ := h
  rw [List.takeWhile_append_of_pos (by simp)]
  simp

theorem Holds.strings (h : Holds cells strs) : strings cells = strs := by
  rw [Setenv.strings, h.takeWhile]
  simp [List.reduceOption]

theorem Holds.count (h : Holds cells strs) : count cells = strs.length := by
  rw [Setenv.count, h.takeWhile, List.length_map]

theorem Holds.valueOf (h : Holds cells strs) (alloced owned : Bool) :
    valueOf ⟨some cells, alloced, owned⟩ = find binds strs := by
  rw [Setenv.valueOf, Option.getD_some, h.strings]

theorem findenv_none (h : Holds cells strs) (hn : find binds strs n = none) :
    findenv n cells = .ok none := by
  obtain ⟨junk, rfl⟩ := h
  induction strs with
  | nil => rfl
  | cons s strs ih =>
    rw [find_cons, Option.or_eq_none_iff] at hn
    rw [List.map_cons, List.cons_append, findenv, hn.1, ih hn.2]
    rfl

/-- The first string that binds the name. -/
theorem findenv_some {l₁ l₂ : List Str} (h : Holds cells (l₁ ++ s :: l₂))
    (hn : find binds l₁ n = none) (hs : binds s n = some v) :
    findenv n cells = .ok (some (l₁.length, v)) := by
  obtain ⟨junk, rfl⟩ := h
  induction l₁ with
  | nil =>
    rw [List.nil_append, List.map_cons, List.cons_append, findenv, hs]
    rfl
  | cons t l₁ ih =>
    rw [find_cons, Option.or_eq_none_iff] at hn
    rw [List.cons_append, List.map_cons, List.cons_append, findenv, hn.1, ih hn.2]
    rfl

theorem Holds.set {l₁ l₂ : List Str} (h : Holds cells (l₁ ++ s :: l₂)) (t : Str) :
    Holds (cells.set l₁.length (some t)) (l₁ ++ t :: l₂) := by
  obtain ⟨junk, rfl⟩ := h
  refine ⟨junk, ?_⟩
  have hlen : l₁.length = (l₁.map some).length := (List.length_map _).symm
  rw [List.map_append, List.append_assoc, hlen, List.set_append_right _ _ le_rfl, Nat.sub_self]
  simp

/-- Bytes copied over the end of a string. -/
theorem Holds.modify {l₁ l₂ : List Str} (h : Holds cells (l₁ ++ s :: l₂)) (f : Str → Str) :
    cells.modify l₁.length (Option.map f) = cells.set l₁.length (some (f s)) := by
  obtain ⟨junk, rfl⟩ := h
  have hget : ((l₁ ++ s :: l₂).map some ++ none :: junk)[l₁.length]? = some (some s) := by simp
  rw [List.modify_eq_set_getElem?, hget]
  rfl

theorem overwrite_eq (n : Name) (v value : Str) :
    ((n : Str) ++ equals :: v).take (((n : Str) ++ equals :: v).length - v.length) ++ value =
      n ++ equals :: value := by
  have hlen : ((n : Str) ++ equals :: v).length - v.length = ((n : Str) ++ [equals]).length := by
    simp only [List.length_append, List.length_cons, List.length_nil]
    omega
  rw [hlen, show (n : Str) ++ equals :: v = (n ++ [equals]) ++ v by simp, List.take_left]
  simp

theorem shiftDown_ok (l : List Str) (s : Str) (junk : List (Option Str)) :
    shiftDown ((s :: l).map some ++ none :: junk) = .ok (l.map some ++ none :: none :: junk) := by
  induction l generalizing s with
  | nil => rfl
  | cons t l ih =>
    show (do
      let rest ← shiftDown ((t :: l).map some ++ none :: junk)
      return some t :: rest) = _
    rw [ih]
    rfl

/-- Each turn takes the first string that binds the name out. -/
theorem unsetLoop_ok (n : Name) (fuel : ℕ) (strs : List Str) (h : Holds cells strs)
    (hfuel : strs.length < fuel) :
    ∃ cells', unsetLoop n fuel cells = .ok cells' ∧
      Holds cells' (strs.filter fun s => (binds s n).isNone) := by
  induction fuel generalizing cells strs with
  | zero => omega
  | succ fuel ih =>
    cases hf : find binds strs n with
    | none =>
      refine ⟨cells, by rw [unsetLoop, findenv_none h hf]; rfl, ?_⟩
      rw [List.filter_eq_self.mpr]
      · exact h
      · intro s hs
        rw [List.findSome?_eq_none_iff.mp hf s hs]
        rfl
    | some v =>
      obtain ⟨l₁, s, l₂, rfl, hl₁, hs⟩ := find_eq_some hf
      obtain ⟨junk, hc⟩ := h
      have hdrop : cells.drop l₁.length = (s :: l₂).map some ++ none :: junk := by
        rw [hc, List.map_append, List.append_assoc]
        exact List.drop_left' (List.length_map _)
      have htake : cells.take l₁.length = l₁.map some := by
        rw [hc, List.map_append, List.append_assoc]
        exact List.take_left' (List.length_map _)
      have hrest : Holds (l₁.map some ++ (l₂.map some ++ none :: none :: junk)) (l₁ ++ l₂) :=
        ⟨none :: junk, by simp⟩
      obtain ⟨cells', hu, hh⟩ := ih (l₁ ++ l₂) hrest (by simp at hfuel ⊢; omega)
      refine ⟨cells', ?_, ?_⟩
      · rw [unsetLoop, findenv_some ⟨junk, hc⟩ hl₁ hs, Fault.ok_bind]
        dsimp only
        rw [hdrop, shiftDown_ok, Fault.ok_bind, htake, hu]
      · rw [List.filter_append, List.filter_cons_of_neg (by rw [hs]; simp), ← List.filter_append]
        exact hh

/-! ## One call -/

/-- `environ` is not null, and its array ends with a null pointer. -/
def Env.Terminated (e : Env) : Prop := ∃ cells strs, e.environ = some cells ∧ Holds cells strs

theorem place_found {l₁ l₂ : List Str} (h : Holds cells (l₁ ++ s :: l₂))
    (hl₁ : find binds l₁ (cut name) = none) (hs : binds s (cut name) = some v) (value : Str) :
    ∃ e', place true name value l₁.length cells e = (0, e') ∧ e'.Terminated ∧
      valueOf e' = Function.update (find binds (l₁ ++ s :: l₂)) (cut name) (some value) := by
  have hset := h.set ((cut name : Str) ++ equals :: value)
  refine ⟨_, rfl, ⟨_, _, rfl, hset⟩, ?_⟩
  rw [Setenv.valueOf]
  show find binds (strings (cells.set _ _)) = _
  rw [hset.strings, find_replace binds_oneKey hl₁ hs (binds_new _ value)]

/-- A new array, with its last two cells null. -/
theorem place_new (hn : find binds strs (cut name) = none) (str : Bool) (value : Str) (e : Env) :
    ∃ r e', place str name value strs.length (strs.map some ++ [none, none]) e = (r, e') ∧
      e'.Terminated ∧
      ((r = 0 ∧ valueOf e' = Function.update (find binds strs) (cut name) (some value)) ∨
        (r = -1 ∧ valueOf e' = find binds strs ∧ str = false)) := by
  have hset : ∀ c : Option Str,
      (strs.map some ++ [none, none]).set strs.length c = strs.map some ++ [c, none] := by
    intro c
    have hlen : strs.length = (strs.map some).length := (List.length_map _).symm
    rw [hlen, List.set_append_right _ _ le_rfl, Nat.sub_self]
    rfl
  cases str with
  | true =>
    have hh : Holds (strs.map some ++ [some ((cut name : Str) ++ equals :: value), none])
        (strs ++ [(cut name : Str) ++ equals :: value]) := ⟨[], by simp⟩
    refine ⟨0, _, rfl, ⟨_, _, rfl, by rw [hset]; exact hh⟩, .inl ⟨rfl, ?_⟩⟩
    rw [Setenv.valueOf]
    show find binds (strings (List.set _ _ _)) = _
    rw [hset, hh.strings, find_snoc binds_oneKey hn (binds_new _ value)]
  | false =>
    have hh : Holds (strs.map some ++ [none, none]) strs := ⟨[none], rfl⟩
    refine ⟨-1, _, rfl, ⟨_, _, rfl, by rw [hset]; exact hh⟩, .inr ⟨rfl, ?_, rfl⟩⟩
    rw [Setenv.valueOf]
    show find binds (strings (List.set _ _ _)) = _
    rw [hset, hh.strings]

/-- An array for one more string. Where there is none, nothing has changed. -/
theorem newSlot_ok {alloced owned : Bool} (h : Holds cells strs) (grow : Bool)
    (hok : alloced = true → owned = true ∧ grow = true) :
    (grow = true ∧ ∃ e', newSlot grow cells ⟨some cells, alloced, owned⟩ =
      .ok (some (strs.map some ++ [none, none]), e')) ∨
    (grow = false ∧ ∃ e', newSlot grow cells ⟨some cells, alloced, owned⟩ = .ok (none, e') ∧
      e'.environ = some cells) := by
  have hcount := h.count
  obtain ⟨junk, hc⟩ := h
  have hlen : strs.length = (strs.map some).length := (List.length_map _).symm
  unfold newSlot
  dsimp only
  rw [hcount]
  cases alloced with
  | true =>
    obtain ⟨rfl, rfl⟩ := hok rfl
    refine .inl ⟨rfl, ⟨some cells, true, true⟩, ?_⟩
    have htake : cells.take (strs.length + 1) = strs.map some ++ [none] := by
      rw [hc, hlen, List.take_length_add_append]
      rfl
    rw [if_pos rfl, if_neg (by simp), if_pos rfl, htake, List.append_assoc]
    rfl
  | false =>
    have htake : cells.take strs.length = strs.map some := by
      rw [hc, hlen, List.take_left]
    cases grow with
    | true =>
      refine .inl ⟨rfl, ⟨some cells, true, true⟩, ?_⟩
      rw [if_neg (by simp), if_pos rfl, htake]
    | false => exact .inr ⟨rfl, ⟨some cells, true, owned⟩, rfl, rfl⟩

theorem setenv_spec (h : e.Terminated) (name value : Str) (rewrite grow str : Bool)
    (hok : (Call.setenv name value rewrite grow str).Ok e) :
    ∃ r e', setenv grow str name value rewrite e = .ok (r, e') ∧ e'.Terminated ∧
      Spec (valueOf e) (valueOf e') (.setenv name value rewrite grow str) (.int r) := by
  obtain ⟨environ, alloced, owned⟩ := e
  obtain ⟨cells, strs, he, hh⟩ := h
  change environ = some cells at he
  subst he
  have hval := hh.valueOf alloced owned
  have hcells : (⟨some cells, alloced, owned⟩ : Env).cells = .ok cells := rfl
  rw [Call.Ok, hval] at hok
  unfold setenv Spec
  rw [hval, hcells]
  cases hf : find binds strs (cut name) with
  | some v =>
    rw [hf] at hok
    obtain ⟨l₁, s, l₂, rfl, hl₁, hs⟩ := find_eq_some hf
    rw [Fault.ok_bind, findenv_some hh hl₁ hs, Fault.ok_bind]
    dsimp only
    by_cases hr : rewrite = true
    · have hkeep : ¬(rewrite = false ∧ (find binds (l₁ ++ s :: l₂) (cut name)).isSome = true) :=
        fun h => by simp [hr] at h
      by_cases hfit : (strip value).length ≤ v.length
      · obtain ⟨e', hp, ht, hv⟩ := place_found (e := ⟨some cells, alloced, owned⟩) hh hl₁ hs
          (strip value)
        have hsn := binds_eq_some.mp hs
        refine ⟨0, e', ?_, ht, .inl ⟨rfl, hv.trans (if_neg hkeep).symm⟩⟩
        rw [if_neg (not_not_intro hr), if_pos hfit, hh.modify, hsn, overwrite_eq]
        rw [place, if_pos rfl] at hp
        exact congrArg Except.ok hp
      · obtain ⟨e', hp, ht, hv⟩ := place_found (e := ⟨some cells, alloced, owned⟩) hh hl₁ hs
          (strip value)
        refine ⟨0, e', ?_, ht, .inl ⟨rfl, hv.trans (if_neg hkeep).symm⟩⟩
        rw [if_neg (not_not_intro hr), if_neg hfit, hok hr (not_le.mp hfit), hp]
        rfl
    · refine ⟨0, ⟨some cells, alloced, owned⟩, ?_, ⟨cells, _, rfl, hh⟩, .inl ⟨rfl, ?_⟩⟩
      · rw [if_pos hr]
        rfl
      · rw [if_pos ⟨by simpa using hr, by rw [hf]; rfl⟩, hval]
  | none =>
    rw [hf] at hok
    rw [Fault.ok_bind, findenv_none hh hf, Fault.ok_bind]
    dsimp only
    have hnew : ¬(rewrite = false ∧ (find binds strs (cut name)).isSome = true) := by
      simp [hf]
    rcases newSlot_ok hh grow hok with ⟨hg, e₁, hn⟩ | ⟨hg, e₁, hn, he₁⟩
    · obtain ⟨r, e', hp, ht, hv⟩ := place_new hf str (strip value) e₁
      refine ⟨r, e', ?_, ht, ?_⟩
      · rw [hn, Fault.ok_bind]
        dsimp only
        rw [hh.count, hp]
        rfl
      · rcases hv with ⟨hr, hv⟩ | ⟨hr, hv, hs⟩
        · exact .inl ⟨hr, hv.trans (if_neg hnew).symm⟩
        · exact .inr ⟨hr, hv, by simp [hs]⟩
    · refine ⟨-1, e₁, by rw [hn]; rfl, ⟨cells, strs, he₁, hh⟩, .inr ⟨rfl, ?_, by simp [hg]⟩⟩
      rw [Setenv.valueOf, he₁, Option.getD_some, hh.strings]

/-- One call returns, keeps the array terminated, and does to the map what it should. -/
theorem step_spec (h : e.Terminated) (c : Call) (hok : c.Ok e) :
    ∃ r e', step e c = .ok (r, e') ∧ e'.Terminated ∧ Spec (valueOf e) (valueOf e') c r := by
  cases c with
  | setenv name value rewrite grow str =>
    obtain ⟨r, e', hs, ht, hsp⟩ := setenv_spec h name value rewrite grow str hok
    exact ⟨.int r, e', by rw [step, hs]; rfl, ht, hsp⟩
  | unsetenv name =>
    obtain ⟨environ, alloced, owned⟩ := e
    obtain ⟨cells, strs, he, hh⟩ := h
    change environ = some cells at he
    subst he
    obtain ⟨cells', hu, hh'⟩ := unsetLoop_ok (cut name) (cells.length + 1) strs hh (by
      obtain ⟨junk, rfl⟩ := hh
      simp only [List.length_append, List.length_map]
      omega)
    refine ⟨.unit, ⟨some cells', alloced, owned⟩, ?_, ⟨cells', _, rfl, hh'⟩, ?_⟩
    · rw [step, unsetenv, Env.cells]
      dsimp only
      rw [Fault.ok_bind, hu]
      rfl
    · rw [Spec, hh.valueOf, hh'.valueOf, find_filter binds_oneKey]
  | getenv name =>
    have hterm := h
    obtain ⟨environ, alloced, owned⟩ := e
    obtain ⟨cells, strs, he, hh⟩ := h
    change environ = some cells at he
    subst he
    refine ⟨.ptr (find binds strs (cut name)), _, ?_, hterm, rfl, by rw [hh.valueOf]⟩
    rw [step, getenv, Env.cells]
    dsimp only
    cases hf : find binds strs (cut name) with
    | some v =>
      obtain ⟨l₁, s, l₂, rfl, hl₁, hs⟩ := find_eq_some hf
      rw [Fault.ok_bind, findenv_some hh hl₁ hs]
      rfl
    | none =>
      rw [Fault.ok_bind, findenv_none hh hf]
      rfl

/-! ## Sequences of calls -/

theorem faithful_of_ok (calls : List Call) (h : e.Terminated) (hok : AllOk calls e) :
    Faithful calls e := by
  induction calls generalizing e with
  | nil => trivial
  | cons c calls ih =>
    obtain ⟨r, e', hs, ht, hsp⟩ := step_spec h c hok.1
    exact ⟨r, e', hs, hsp, ih ht (hok.2 r e' hs)⟩

/-- From any environment, in every sequence whose calls are all right, each call returns and
does to the map what it should. -/
theorem calls_faithful (strs : List Str) (calls : List Call) (h : AllOk calls (start strs)) :
    valueOf (start strs) = find binds strs ∧ Faithful calls (start strs) := by
  have hh : Holds (strs.map some ++ [none]) strs := ⟨[], rfl⟩
  exact ⟨hh.valueOf false false, faithful_of_ok calls ⟨_, strs, rfl, hh⟩ h⟩

/-- The environment `A=1`, in which `A` is given a longer value. -/
theorem calls_faithful_longer :
    valueOf (start [[65, 61, 49]]) = find binds [[65, 61, 49]] ∧
      Faithful [.setenv [65] [50, 50] true true true] (start [[65, 61, 49]]) :=
  calls_faithful [[65, 61, 49]] [.setenv [65] [50, 50] true true true]
    ⟨fun _ _ => rfl, fun _ _ _ => trivial⟩

/-- With `A=1` and `B=1`, there is no memory for a longer value of `A`: `setenv` returns -1, and
neither name has a value any more. -/
theorem longer_nomem :
    ¬Faithful [.setenv [65] [50, 50] true true false] (start [[65, 61, 49], [66, 61, 49]]) := by
  rintro ⟨r, e', hs, hsp, -⟩
  have he : step (start [[65, 61, 49], [66, 61, 49]]) (.setenv [65] [50, 50] true true false) =
      .ok (.int (-1), { environ := some [none, some [66, 61, 49], none] }) := by rfl
  rw [he] at hs
  cases hs
  rcases hsp with ⟨h, -⟩ | ⟨-, h, -⟩
  · exact absurd h (by decide)
  · have hb := congrFun h (cut [66])
    exact absurd hb (by decide)

end Setenv
