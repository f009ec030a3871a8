import Mathlib.Data.List.Perm.Basic

/-!
# Alarms with absolute deadlines

A book of alarms: what a timer queue is for. An alarm is armed under a key, with the tick at
which it is due; it stays pending until the one call of its key made for it, or until it is
removed. A tick is only taken when nothing pending is due.

## Main definitions

* `Alarm`, `Fate`, `Book`: the alarms armed so far, in order, and what became of each
* `Step`, `Run`: arming, cancelling, ticking and calling
* `armed ls`, `called ls`: the alarms armed and the calls made in a run, with their ticks

## Main results

* `Run.log_eq`: the book holds the alarms armed, each under its deadline
* `Run.called_perm`: the calls made are those of the fired alarms, each at its deadline
* `Run.not_late`: a pending alarm is not overdue
-/

namespace Alarms

variable {K : Type}

/-- What became of an alarm. -/
inductive Fate where
  | pending
  | fired
  | removed
  deriving DecidableEq, Repr

/-- An alarm: its key, the tick at which it is due, and its fate so far. -/
structure Alarm (K : Type) where
  key : K
  deadline : ℕ
  fate : Fate

/-- The key and the deadline of an alarm. -/
def Alarm.due (a : Alarm K) : K × ℕ := (a.key, a.deadline)

/-- The ticks so far, and every alarm armed so far in the order they were armed. -/
structure Book (K : Type) where
  now : ℕ
  log : List (Alarm K)

/-- The alarms of one fate, as keys and deadlines. -/
def Book.having (φ : Fate) (b : Book K) : List (K × ℕ) :=
  (b.log.filter (·.fate = φ)).map Alarm.due

/-- What happens to a book. -/
inductive Label (K : Type) where
  | arm (k : K) (delay : ℕ)
  | cancel (k : K)
  | tick
  | call (k : K)
  deriving DecidableEq, Repr

/-- One step of a book. Only a pending alarm changes its fate, and a call is made for one alarm,
at its deadline. -/
inductive Step : Book K → Label K → Book K → Prop where
  | arm (b : Book K) (k : K) (delay : ℕ) :
      Step b (.arm k delay) { b with log := b.log ++ [⟨k, b.now + delay, .pending⟩] }
  | cancel (b : Book K) (i : ℕ) (a : Alarm K) (hi : b.log[i]? = some a) (ha : a.fate = .pending) :
      Step b (.cancel a.key) { b with log := b.log.set i { a with fate := .removed } }
  | miss (b : Book K) (k : K) (h : ∀ a ∈ b.log, a.fate = .pending → a.key ≠ k) :
      Step b (.cancel k) b
  | tick (b : Book K) (h : ∀ a ∈ b.log, a.fate = .pending → b.now < a.deadline) :
      Step b .tick { b with now := b.now + 1 }
  | call (b : Book K) (i : ℕ) (a : Alarm K) (hi : b.log[i]? = some a) (ha : a.fate = .pending)
      (hd : a.deadline = b.now) :
      Step b (.call a.key) { b with log := b.log.set i { a with fate := .fired } }

/-- The books reached from the empty one, with the labels of the steps. -/
inductive Run : List (Label K) → Book K → Prop where
  | nil : Run [] ⟨0, []⟩
  | snoc {ls : List (Label K)} {b b' : Book K} {l : Label K} :
      Run ls b → Step b l b' → Run (ls ++ [l]) b'

/-- The ticks among the labels. -/
def ticks : List (Label K) → ℕ
  | [] => 0
  | .tick :: ls => ticks ls + 1
  | _ :: ls => ticks ls

/-- The alarms armed among the labels, the first label at tick `n`: a key and the tick it is
due at. -/
def armed : ℕ → List (Label K) → List (K × ℕ)
  | _, [] => []
  | n, .arm k delay :: ls => (k, n + delay) :: armed n ls
  | n, .tick :: ls => armed (n + 1) ls
  | n, _ :: ls => armed n ls

/-- The calls made among the labels, the first label at tick `n`: a key and the tick of the
call. -/
def called : ℕ → List (Label K) → List (K × ℕ)
  | _, [] => []
  | n, .call k :: ls => (k, n) :: called n ls
  | n, .tick :: ls => called (n + 1) ls
  | n, _ :: ls => called n ls

theorem ticks_snoc (ls : List (Label K)) (l : Label K) :
    ticks (ls ++ [l]) = ticks ls + ticks [l] := by
  induction ls with
  | nil => simp [ticks]
  | cons l' ls ih => cases l' <;> simp [ticks, ih, Nat.add_right_comm]

theorem armed_snoc (n : ℕ) (ls : List (Label K)) (l : Label K) :
    armed n (ls ++ [l]) = armed n ls ++ armed (n + ticks ls) [l] := by
  induction ls generalizing n with
  | nil => rfl
  | cons l' ls ih =>
    have harith : n + 1 + ticks ls = n + (ticks ls + 1) := by omega
    cases l' <;> simp [armed, ticks, ih, harith]

theorem called_snoc (n : ℕ) (ls : List (Label K)) (l : Label K) :
    called n (ls ++ [l]) = called n ls ++ called (n + ticks ls) [l] := by
  induction ls generalizing n with
  | nil => rfl
  | cons l' ls ih =>
    have harith : n + 1 + ticks ls = n + (ticks ls + 1) := by omega
    cases l' <;> simp [called, ticks, ih, harith]

section Settle

variable {b : Book K} {a : Alarm K} {i : ℕ} {φ ψ : Fate}

/-- The log before and after an alarm. -/
theorem log_split (hi : b.log[i]? = some a) :
    ∃ l r, b.log = l ++ a :: r ∧ l.length = i := by
  obtain ⟨hlt, rfl⟩ := List.getElem?_eq_some_iff.mp hi
  refine ⟨b.log.take i, b.log.drop (i + 1), ?_, by simp; omega⟩
  rw [List.getElem_cons_drop hlt, List.take_append_drop]

theorem set_split {l r : List (Alarm K)} (hlog : b.log = l ++ a :: r) (hl : l.length = i) :
    b.log.set i { a with fate := φ } = l ++ { a with fate := φ } :: r := by
  subst hl
  simp [hlog]

/-- Settling a pending alarm takes its key and deadline off the pending ones. -/
theorem having_pending_set (hi : b.log[i]? = some a) (ha : a.fate = .pending)
    (hφ : φ ≠ .pending) :
    (b.having .pending).Perm
      (a.due :: ({ b with log := b.log.set i { a with fate := φ } } : Book K).having .pending) := by
  obtain ⟨l, r, hlog, hl⟩ := log_split hi
  simp only [Book.having, set_split hlog hl]
  rw [hlog]
  simp only [List.filter_append, List.filter_cons, ha, hφ, decide_true, decide_false, if_true,
    List.map_append, List.map_cons, Bool.false_eq_true, if_false]
  exact List.perm_middle

/-- Settling a pending alarm as `φ` puts its key and deadline with those of `φ`. -/
theorem having_set_self (hi : b.log[i]? = some a) (ha : a.fate = .pending)
    (hφ : φ ≠ .pending) :
    (({ b with log := b.log.set i { a with fate := φ } } : Book K).having φ).Perm
      (a.due :: b.having φ) := by
  obtain ⟨l, r, hlog, hl⟩ := log_split hi
  simp only [Book.having, set_split hlog hl]
  rw [hlog]
  have hne : ¬ Fate.pending = φ := fun h => hφ h.symm
  simp only [List.filter_append, List.filter_cons, ha, hne, decide_true, decide_false, if_true,
    List.map_append, List.map_cons, Bool.false_eq_true, if_false]
  exact List.perm_middle

/-- Settling a pending alarm as `φ` leaves every other fate alone. -/
theorem having_set_other (hi : b.log[i]? = some a) (ha : a.fate = .pending)
    (hψ : ψ ≠ .pending) (hφ : φ ≠ ψ) :
    ({ b with log := b.log.set i { a with fate := φ } } : Book K).having ψ = b.having ψ := by
  obtain ⟨l, r, hlog, hl⟩ := log_split hi
  simp only [Book.having, set_split hlog hl]
  rw [hlog]
  have hne : ¬ Fate.pending = ψ := fun h => hψ h.symm
  simp only [List.filter_append, List.filter_cons, ha, hne, hφ, decide_false, if_false,
    Bool.false_eq_true]

/-- Settling an alarm changes no key and no deadline. -/
theorem due_set (hi : b.log[i]? = some a) :
    (b.log.set i { a with fate := φ }).map Alarm.due = b.log.map Alarm.due := by
  obtain ⟨l, r, hlog, hl⟩ := log_split hi
  rw [set_split hlog hl, hlog]
  simp [Alarm.due]

end Settle

variable {ls : List (Label K)} {b : Book K}

theorem mem_having {φ : Fate} {p : K × ℕ} :
    p ∈ b.having φ ↔ ∃ a ∈ b.log, a.fate = φ ∧ a.due = p := by
  simp [Book.having, and_assoc]

theorem exists_of_mem_having {φ : Fate} {p : K × ℕ} (h : p ∈ b.having φ) :
    ∃ (i : ℕ) (a : Alarm K), b.log[i]? = some a ∧ a.fate = φ ∧ a.due = p := by
  obtain ⟨a, ha, hf, hd⟩ := mem_having.mp h
  obtain ⟨i, hi⟩ := List.mem_iff_getElem?.mp ha
  exact ⟨i, a, hi, hf, hd⟩

/-- The clock of a book counts the ticks. -/
theorem Run.now_eq (h : Run ls b) : b.now = ticks ls := by
  induction h with
  | nil => rfl
  | snoc _ hs ih => cases hs <;> simp [ticks_snoc, ticks, ih]

/-- **The book holds the alarms armed**, in order and under their deadlines. -/
theorem Run.log_eq (h : Run ls b) : b.log.map Alarm.due = armed 0 ls := by
  induction h with
  | nil => rfl
  | snoc h hs ih =>
    rw [armed_snoc, ← ih, Nat.zero_add, ← h.now_eq]
    cases hs with
    | arm => simp [armed, Alarm.due]
    | cancel i a hi ha => simp [armed, due_set hi]
    | miss => simp [armed]
    | tick => simp [armed]
    | call i a hi ha hd => simp [armed, due_set hi]

/-- **The calls made are those of the fired alarms**, each made once and at its deadline. -/
theorem Run.called_perm (h : Run ls b) : (called 0 ls).Perm (b.having .fired) := by
  induction h with
  | nil => exact List.Perm.nil
  | @snoc ls b b' l h hs ih =>
    rw [called_snoc, Nat.zero_add, ← h.now_eq]
    cases hs with
    | arm => simpa [called, Book.having, List.filter_append] using ih
    | cancel i a hi ha =>
      rw [having_set_other hi ha (by decide) (by decide)]
      simpa [called] using ih
    | miss => simpa [called] using ih
    | tick => simpa [called, Book.having] using ih
    | call i a hi ha hd =>
      refine List.Perm.trans ?_ (having_set_self hi ha (by decide)).symm
      have hdue : a.due = (a.key, b.now) := by rw [Alarm.due, hd]
      rw [hdue]
      exact (List.perm_append_singleton _ _).trans (ih.cons _)

/-- **A pending alarm is not overdue.** -/
theorem Run.not_late (h : Run ls b) :
    ∀ a ∈ b.log, a.fate = .pending → b.now ≤ a.deadline := by
  induction h with
  | nil => intro a ha; cases ha
  | @snoc ls b b' l h hs ih =>
    intro x hx hp
    cases hs with
    | arm k delay =>
      rcases List.mem_append.mp hx with hx | hx
      · exact ih x hx hp
      · obtain rfl := List.mem_singleton.mp hx
        exact Nat.le_add_right _ _
    | cancel i a hi ha =>
      rcases List.mem_or_eq_of_mem_set hx with hx | rfl
      · exact ih x hx hp
      · cases hp
    | miss => exact ih x hx hp
    | tick hdue => exact hdue x hx hp
    | call i a hi ha hd =>
      rcases List.mem_or_eq_of_mem_set hx with hx | rfl
      · exact ih x hx hp
      · cases hp

end Alarms
