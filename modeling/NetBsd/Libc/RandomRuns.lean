import NetBsd.Libc.Random

/-!
# Runs over several state arrays

Any sequence of the four routines, over as many arrays as one likes. What an array was seeded
with last, and how many numbers were drawn from it since, is written down beside the run.

## Main definitions

* `RandState.Op`, `RandState.run`: the calls, and the numbers they draw
* `RandState.Log`: where each array comes from, and how many numbers were drawn from it
* `RandState.Allowed`: `setstate` finds an initialised array whose word 0 is up to date
* `RandState.Matches`: every array stands for the generator of its log

## Main results

* `RandState.step_matches`: one call keeps the arrays and the log together
* `RandState.run_numbers`: every number is the one its log tells, and the pointers stay inside
  the current array
-/

namespace RandState

inductive Op where
  | initstate (seed : Word) (a : ℕ) (n : ℤ)
  | setstate (a : ℕ)
  | srandom (x : Word)
  | random

/-- One call, and the number it draws if it is one of `random`. -/
def step (op : Op) (r : Rand) : List Word × Rand :=
  match op with
  | .initstate seed a n => ([], RandState.initstate seed a n r)
  | .setstate a => ([], RandState.setstate a r)
  | .srandom x => ([], RandState.srandom x r)
  | .random => ([(RandState.random r).1], (RandState.random r).2)

def run : List Op → Rand → List Word × Rand
  | [], r => ([], r)
  | op :: ops, r => ((step op r).1 ++ (run ops (step op r).2).1, (run ops (step op r).2).2)

/-- Where the state of an array comes from: `randtbl` as it is compiled in, or a seed. -/
inductive Origin where
  | table
  | seeded (t : GenType) (x : Word)

def Origin.gen : Origin → Gen
  | table => ⟨.type3, fun i => randtbl.getD (i + 1) 0, 0⟩
  | seeded t x => .seeded t x

/-- The current array, the last seed of each, and the numbers drawn since. -/
structure Log where
  cur : ℕ
  origin : ℕ → Option Origin
  drawn : ℕ → ℕ

namespace Log

def boot : Log := ⟨0, Function.update (fun _ => none) 0 (some .table), fun _ => 0⟩

/-- Array `a` is seeded and becomes the current one. -/
def seed (l : Log) (a : ℕ) (o : Origin) : Log :=
  ⟨a, Function.update l.origin a (some o), Function.update l.drawn a 0⟩

def step (l : Log) : Op → Log
  | .initstate x a n =>
    match GenType.ofBytes n with
    | none => l
    | some t => l.seed a (.seeded t x)
  | .setstate a => { l with cur := a }
  | .srandom x =>
    match l.origin l.cur with
    | none => l
    | some o => l.seed l.cur (.seeded o.gen.type x)
  | .random => { l with drawn := Function.update l.drawn l.cur (l.drawn l.cur + 1) }

/-- The number a call draws, by the last seed of the current array and how many numbers were
drawn from it since. -/
def number (l : Log) : Op → List Word
  | .random => (l.origin l.cur).elim [] fun o => [o.gen.number (l.drawn l.cur)]
  | _ => []

def numbers : List Op → Log → List Word
  | [], _ => []
  | op :: ops, l => l.number op ++ numbers ops (l.step op)

end Log

/-- `setstate` is given an initialised array; and if that is the current one, its word 0 holds
the position it has now. -/
def Op.Ok (r : Rand) (l : Log) : Op → Prop
  | .setstate a => (l.origin a).isSome ∧ (a = l.cur → r.mem a 0 = r.position)
  | _ => True

def Allowed : List Op → Rand → Log → Prop
  | [], _, _ => True
  | op :: ops, r, l => op.Ok r l ∧ Allowed ops (step op r).2 (l.step op)

/-- Where pointers are used, they are in the words of the current array, the front one
`rand_sep` words ahead round the end. -/
def Inside (r : Rand) : Prop :=
  r.randType ≠ .type0 →
    r.fptr.1 = r.state.1 ∧ r.rptr.1 = r.state.1 ∧
    0 ≤ r.rptr.2 - r.state.2 ∧ r.rptr.2 - r.state.2 < r.randDeg ∧
    0 ≤ r.fptr.2 - r.state.2 ∧ r.fptr.2 - r.state.2 < r.randDeg ∧
    r.fptr.2 - r.state.2 = (r.rptr.2 - r.state.2 + r.randSep) % r.randDeg

/-- Each array stands for the generator its log tells. -/
structure Matches (r : Rand) (l : Log) : Prop where
  running : ∃ o, l.origin l.cur = some o ∧ Running r l.cur (o.gen.after (l.drawn l.cur))
  resting : ∀ b o, b ≠ l.cur → l.origin b = some o → Resting (r.mem b) (o.gen.after (l.drawn b))

variable {r : Rand} {l : Log} {a c : ℕ} {gc : Gen}

theorem Running.inside {g : Gen} (h : Running r a g) : Inside r := by
  intro ht
  rw [h.type] at ht
  have hr := h.ok ht
  have hf := h.ok.front_lt ht
  rw [h.state, h.rptr ht, h.fptr ht, h.deg, h.sep]
  refine ⟨rfl, rfl, by omega, by omega, by omega, by omega, ?_⟩
  show 1 + (g.front : ℤ) - 1 = (1 + (g.rear : ℤ) - 1 + g.type.sep) % g.type.deg
  rw [show 1 + (g.rear : ℤ) - 1 + g.type.sep = ((g.rear + g.type.sep : ℕ) : ℤ) by push_cast; omega,
    ← Int.natCast_mod, ← Gen.front]
  omega

/-- `initstate` with enough bytes: the old array is put to rest, the new one runs. -/
theorem initstate_running (h : Running r c gc) (x : Word) (a : ℕ) {n : ℤ} {t : GenType}
    (hn : GenType.ofBytes n = some t) :
    Running (initstate x a n r) a (.seeded t x) ∧
      ∀ b, b ≠ a → (initstate x a n r).mem b = (save r).mem b := by
  unfold initstate
  rw [hn]
  dsimp only
  obtain ⟨hrun, hf⟩ := srandom_running (a := a) (t := t)
    (r := { save r with
      randType := t
      randDeg := t.deg
      randSep := t.sep
      state := (a, 1)
      endPtr := (a, 1 + (t.deg : ℤ)) }) rfl rfl rfl rfl rfl x
  refine ⟨hrun.save, fun b hb => ?_⟩
  funext j
  exact (save_mem hrun b j).trans ((if_neg fun h => hb h.1).trans (hf b j (.inl hb)))

/-- Putting the current array to rest concerns no other. -/
theorem save_other (h : Running r c gc) {b : ℕ} (hb : b ≠ c) : (save r).mem b = r.mem b := by
  funext j
  rw [save_mem h, if_neg fun h => hb h.1]

theorem Matches.saved (h : Matches r l) (b : ℕ) (o : Origin) (ho : l.origin b = some o)
    (hb : b = l.cur ∨ b ≠ l.cur) : Resting ((save r).mem b) (o.gen.after (l.drawn b)) := by
  obtain ⟨oc, hoc, hrun⟩ := h.running
  rcases hb with rfl | hb
  · rw [hoc] at ho
    cases ho
    exact save_resting hrun
  · rw [save_other hrun hb]
    exact h.resting b o hb ho

/-- One call keeps the arrays and the log together, and draws the number that the log tells. -/
theorem step_matches (h : Matches r l) (op : Op) (hop : op.Ok r l) :
    (step op r).1 = l.number op ∧ Matches (step op r).2 (l.step op) := by
  obtain ⟨o, ho, hrun⟩ := h.running
  cases op with
  | initstate x a n =>
    refine ⟨rfl, ?_⟩
    show Matches (initstate x a n r) (l.step (.initstate x a n))
    cases hn : GenType.ofBytes n with
    | none =>
      rw [Log.step, hn, initstate, hn]
      exact ⟨⟨o, ho, hrun.save⟩, fun b o' hb hb' => h.saved b o' hb' (.inr hb)⟩
    | some t =>
      obtain ⟨hnew, hmem⟩ := initstate_running hrun x a hn
      rw [Log.step, hn]
      refine ⟨⟨.seeded t x, Function.update_self .., ?_⟩, fun b o' hb hb' => ?_⟩
      · show Running _ a ((Origin.seeded t x).gen.after (Function.update l.drawn a 0 a))
        rw [Function.update_self]
        exact hnew
      · change b ≠ a at hb
        change Function.update l.origin a _ b = _ at hb'
        show Resting _ (o'.gen.after (Function.update l.drawn a 0 b))
        rw [Function.update_of_ne hb] at hb' ⊢
        rw [hmem b hb]
        exact h.saved b o' hb' (Decidable.em _)
  | setstate a =>
    refine ⟨rfl, ?_⟩
    obtain ⟨hsome, hpos⟩ := hop
    obtain ⟨oa, hoa⟩ := Option.isSome_iff_exists.mp hsome
    have hrest : Resting (r.mem a) (oa.gen.after (l.drawn a)) := by
      by_cases hac : a = l.cur
      · subst hac
        rw [ho] at hoa
        cases hoa
        exact ⟨(hpos rfl).trans hrun.position, hrun.words, hrun.ok⟩
      · exact h.resting a oa hac hoa
    obtain ⟨hnew, hmem⟩ := setstate_running hrun hrest (by
      rintro rfl
      rw [ho] at hoa
      cases hoa
      rfl)
    refine ⟨⟨oa, hoa, hnew⟩, fun b o' _ hb' => ?_⟩
    show Resting ((setstate a r).mem b) _
    rw [hmem]
    exact h.saved b o' hb' (Decidable.em _)
  | srandom x =>
    refine ⟨rfl, ?_⟩
    obtain ⟨hnew, hf⟩ := srandom_running hrun.state hrun.type hrun.deg hrun.sep hrun.endPtr x
    rw [Gen.after_type] at hnew
    rw [Log.step, ho]
    refine ⟨⟨.seeded o.gen.type x, Function.update_self .., ?_⟩, fun b o' hb hb' => ?_⟩
    · show Running _ l.cur
        ((Origin.seeded o.gen.type x).gen.after (Function.update l.drawn l.cur 0 l.cur))
      rw [Function.update_self]
      exact hnew
    · change b ≠ l.cur at hb
      change Function.update l.origin l.cur _ b = _ at hb'
      show Resting _ (o'.gen.after (Function.update l.drawn l.cur 0 b))
      rw [Function.update_of_ne hb] at hb' ⊢
      have hmem : (srandom x r).mem b = r.mem b := funext fun j => hf b j (.inl hb)
      show Resting ((srandom x r).mem b) _
      rw [hmem]
      exact h.resting b o' hb hb'
  | random =>
    obtain ⟨hval, hnew, hf⟩ := random_running hrun
    refine ⟨?_, ⟨o, ho, ?_⟩, fun b o' hb hb' => ?_⟩
    · show [(random r).1] = (l.origin l.cur).elim [] fun o => [o.gen.number (l.drawn l.cur)]
      rw [ho, hval]
      rfl
    · show Running _ l.cur (o.gen.after (Function.update l.drawn l.cur (l.drawn l.cur + 1) l.cur))
      rw [Function.update_self, Gen.after_succ]
      exact hnew
    · change b ≠ l.cur at hb
      show Resting _ (o'.gen.after (Function.update l.drawn l.cur (l.drawn l.cur + 1) b))
      rw [Function.update_of_ne hb]
      have hmem : (random r).2.mem b = r.mem b := funext fun j => hf b j (.inl hb)
      show Resting ((random r).2.mem b) _
      rw [hmem]
      exact h.resting b o' hb hb'

/-- By induction on the calls. -/
theorem run_matches (ops : List Op) (h : Matches r l) (ha : Allowed ops r l) :
    (run ops r).1 = l.numbers ops ∧ Inside (run ops r).2 := by
  induction ops generalizing r l with
  | nil =>
    obtain ⟨o, -, hrun⟩ := h.running
    exact ⟨rfl, hrun.inside⟩
  | cons op ops ih =>
    obtain ⟨hnum, hnext⟩ := step_matches h op ha.1
    obtain ⟨hrest, hin⟩ := ih hnext ha.2
    exact ⟨by rw [run, hnum, hrest, Log.numbers], hin⟩

theorem boot_matches (mem : ℕ → ℤ → Word) : Matches (boot mem) .boot := by
  refine ⟨⟨.table, rfl, rfl, rfl, rfl, rfl, rfl, fun i _ => ?_, fun _ => by decide, fun _ => rfl,
    fun _ => rfl⟩, fun b o hb hb' => ?_⟩
  · have hm : (boot mem).mem 0 = fun j => randtbl.getD j.toNat 0 := by
      simp [boot]
    show (boot mem).mem 0 (1 + i) = randtbl.getD (i + 1) 0
    rw [hm]
    show randtbl.getD (1 + (i : ℤ)).toNat 0 = _
    rw [show (1 + (i : ℤ)).toNat = i + 1 by omega]
  · change b ≠ 0 at hb
    change Function.update (fun _ => none) 0 _ b = _ at hb'
    rw [Function.update_of_ne hb] at hb'
    cases hb'

/-- In every run, a number depends on nothing but the last seed of the array it is drawn from
and how many numbers were drawn from that array since; and the pointers stay inside the current
array wherever they are used. -/
theorem run_numbers (mem : ℕ → ℤ → Word) (ops : List Op) (h : Allowed ops (boot mem) .boot) :
    (run ops (boot mem)).1 = Log.boot.numbers ops ∧ Inside (run ops (boot mem)).2 :=
  run_matches ops (boot_matches mem) h

/-- Two arrays by turns. -/
theorem run_numbers_two :
    (run [.random, .initstate 5 1 8, .random, .setstate 0, .random] (boot fun _ _ => 0)).1 =
        Log.boot.numbers [.random, .initstate 5 1 8, .random, .setstate 0, .random] ∧
      Inside (run [.random, .initstate 5 1 8, .random, .setstate 0, .random]
        (boot fun _ _ => 0)).2 :=
  run_numbers (fun _ _ => 0) [.random, .initstate 5 1 8, .random, .setstate 0, .random]
    ⟨trivial, trivial, trivial, ⟨rfl, nofun⟩, trivial, trivial⟩

/-- With eight bytes the pointers stay behind in the array left; and `setstate` to the current
array takes the position from a word 0 that is out of date, so that the next number is not the
second one of that array. -/
theorem run_numbers_needs :
    ((run [.initstate 1 1 8] (boot fun _ _ => 0)).2.fptr.1 = 0 ∧
      (run [.initstate 1 1 8] (boot fun _ _ => 0)).2.state.1 = 1) ∧
    (run [.random, .setstate 0, .random] (boot fun _ _ => 0)).1 ≠
      (run [.random, .random] (boot fun _ _ => 0)).1 := by
  refine ⟨⟨rfl, rfl⟩, ?_⟩
  decide +kernel

end RandState
