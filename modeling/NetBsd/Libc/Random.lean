import Mathlib.Data.Int.Basic
import Mathlib.Logic.Function.Basic
import Mathlib.Tactic.Common

/-!
# Random numbers with a choice of state

`random` and its companions, which keep the state of the generator in an array of the caller's.
While an array is current, two pointers go round its words; on a switch the position of one of
them is kept in word 0, together with the type of the generator.

## Main definitions

* `RandState.Rand`: the static variables of `random.c`, and the arrays
* `RandState.random`, `RandState.srandom`, `RandState.initstate`, `RandState.setstate`: the routines
* `RandState.Gen`: a generator by itself, `Gen.seeded` and `Gen.next`
* `RandState.Running r a g`: array `a` is current, and stands for the generator `g`
* `RandState.Resting m g`: the words `m` of an array that is not current stand for `g`

## Main results

* `RandState.random_running`, `RandState.srandom_running`: the routines on the current array are those
  of its generator, and leave every other array alone
* `RandState.save_resting`, `RandState.setstate_running`: an array that is left and found again stands
  for the same generator
-/

namespace RandState

abbrev Word := BitVec 32

/-- `TYPE_0` to `TYPE_4` -/
inductive GenType where
  | type0
  | type1
  | type2
  | type3
  | type4
  deriving DecidableEq, Repr

namespace GenType

/-- The number of a type. -/
def val : GenType → ℕ
  | type0 => 0
  | type1 => 1
  | type2 => 2
  | type3 => 3
  | type4 => 4

/-- `degrees` -/
def deg : GenType → ℕ
  | type0 => 0
  | type1 => 7
  | type2 => 15
  | type3 => 31
  | type4 => 63

/-- `seps` -/
def sep : GenType → ℕ
  | type0 => 0
  | type1 => 3
  | type2 => 1
  | type3 => 3
  | type4 => 1

/-- The `switch` of `setstate`. -/
def ofInt (n : ℤ) : Option GenType :=
  if n = 0 then some type0
  else if n = 1 then some type1
  else if n = 2 then some type2
  else if n = 3 then some type3
  else if n = 4 then some type4
  else none

/-- The best type for so many bytes, by `BREAK_0` to `BREAK_4`. -/
def ofBytes (n : ℤ) : Option GenType :=
  if n < 8 then none
  else if n < 32 then some type0
  else if n < 64 then some type1
  else if n < 128 then some type2
  else if n < 256 then some type3
  else some type4

theorem val_lt (t : GenType) : t.val < 5 := by cases t <;> decide

theorem ofInt_val (t : GenType) : ofInt t.val = some t := by cases t <;> decide

theorem deg_le (t : GenType) : t.deg ≤ 63 := by cases t <;> decide

theorem sep_pos {t : GenType} (h : t ≠ type0) : 0 < t.sep ∧ t.sep < t.deg := by
  cases t <;> first | exact absurd rfl h | decide

end GenType

/-! ## The routines -/

/-- A pointer to a word: the array, and the number of the word in it. -/
abbrev Ptr := ℕ × ℤ

/-- The static variables, and the words of each array. `state` points to word 1. -/
structure Rand where
  mem : ℕ → ℤ → Word
  fptr : Ptr
  rptr : Ptr
  state : Ptr
  randType : GenType
  randDeg : ℤ
  randSep : ℤ
  endPtr : Ptr

namespace Rand

def load (r : Rand) (p : Ptr) : Word := r.mem p.1 p.2

def store (r : Rand) (p : Ptr) (v : Word) : Rand :=
  { r with mem := Function.update r.mem p.1 (Function.update (r.mem p.1) p.2 v) }

/-- `&state[i]` -/
def at' (r : Rand) (i : ℤ) : Ptr := (r.state.1, r.state.2 + i)

end Rand

def random (r : Rand) : Word × Rand :=
  if r.randType = .type0 then
    let i := (r.load (r.at' 0) * 1103515245 + 12345) &&& 0x7fffffff
    (i, r.store (r.at' 0) i)
  else
    let r := r.store r.fptr (r.load r.fptr + r.load r.rptr)
    -- chucking least random bit
    let i := (r.load r.fptr).sshiftRight 1 &&& 0x7fffffff
    let fptr := (r.fptr.1, r.fptr.2 + 1)
    let rptr := (r.rptr.1, r.rptr.2 + 1)
    if r.endPtr.2 ≤ fptr.2 then (i, { r with fptr := r.state, rptr := rptr })
    else if r.endPtr.2 ≤ rptr.2 then (i, { r with fptr := fptr, rptr := r.state })
    else (i, { r with fptr := fptr, rptr := rptr })

/-- The loop of `srandom` that fills `state[1]` to `state[n]`. -/
def fill (r : Rand) : ℕ → Rand
  | 0 => r
  | n + 1 =>
    let r := fill r n
    r.store (r.at' (n + 1)) (1103515245 * r.load (r.at' n) + 12345)

/-- `n` numbers drawn and thrown away. -/
def cycle : ℕ → Rand → Rand
  | 0, r => r
  | n + 1, r => cycle n (random r).2

def srandom (x : Word) (r : Rand) : Rand :=
  if r.randType = .type0 then r.store (r.at' 0) x
  else
    let r := fill (r.store (r.at' 0) x) (r.randDeg - 1).toNat
    let r := { r with fptr := r.at' r.randSep, rptr := r.at' 0 }
    cycle (10 * r.randDeg).toNat r

/-- `MAX_TYPES * (rptr - state) + rand_type`, or `rand_type` alone for `TYPE_0` -/
def Rand.position (r : Rand) : Word :=
  if r.randType = .type0 then BitVec.ofNat 32 r.randType.val
  else BitVec.ofInt 32 (5 * (r.rptr.2 - r.state.2) + r.randType.val)

/-- The position kept in `state[-1]`. -/
def save (r : Rand) : Rand := r.store (r.at' (-1)) r.position

/-- `initstate`. With too few bytes it does no more than save the position. -/
def initstate (seed : Word) (a : ℕ) (n : ℤ) (r : Rand) : Rand :=
  let r := save r
  match GenType.ofBytes n with
  | none => r
  | some t =>
    let r := { r with randType := t, randDeg := t.deg, randSep := t.sep, state := (a, 1) }
    let r := { r with endPtr := r.at' r.randDeg }
    save (srandom seed r)

/-- `setstate`. The word is read before the position is saved. -/
def setstate (a : ℕ) (r : Rand) : Rand :=
  let word := (r.mem a 0).toInt
  let type := word.tmod 5
  let rear := word.tdiv 5
  let r := save r
  let r :=
    match GenType.ofInt type with
    | some t => { r with randType := t, randDeg := t.deg, randSep := t.sep }
    | none => r
  let r := { r with state := (a, 1) }
  let r :=
    if r.randType ≠ .type0 then
      { r with rptr := r.at' rear, fptr := r.at' ((rear + r.randSep).tmod r.randDeg) }
    else r
  { r with endPtr := r.at' r.randDeg }

/-- `randtbl` -/
def randtbl : List Word :=
  [3, 0x9a319039, 0x32d9c024, 0x9b663182, 0x5da1f342, 0xde3b81e0, 0xdf0a6fb5,
    0xf103bc02, 0x48f340fb, 0x7449e56b, 0xbeb1dbb0, 0xab5c5918, 0x946554fd,
    0x8c2e680f, 0xeb3d799f, 0xb11ee0b7, 0x2d436b86, 0xda672e2a, 0x1588ca88,
    0xe369735d, 0x904f35f7, 0xd7158fd6, 0x6fa6f051, 0x616e6b96, 0xac94efdc,
    0x36413f93, 0xc622c298, 0xf5a42ab8, 0x8a88d77b, 0xf5ad9d0e, 0x8999220b,
    0x27fb47b9]

/-- Before any call: array 0 is `randtbl`, and what the others hold is not known. -/
def boot (mem : ℕ → ℤ → Word) : Rand where
  mem := Function.update mem 0 fun i => randtbl.getD i.toNat 0
  fptr := (0, 4)
  rptr := (0, 1)
  state := (0, 1)
  randType := .type3
  randDeg := 31
  randSep := 3
  endPtr := (0, 32)

/-! ## A generator by itself -/

/-- The type of a generator, its words, and where the rear pointer is. -/
structure Gen where
  type : GenType
  words : ℕ → Word
  rear : ℕ

namespace Gen

/-- The front pointer is a fixed distance ahead. -/
def front (g : Gen) : ℕ := (g.rear + g.type.sep) % g.type.deg

/-- The next number, and the generator behind it. -/
def next (g : Gen) : Word × Gen :=
  if g.type = .type0 then
    let i := (g.words 0 * 1103515245 + 12345) &&& 0x7fffffff
    (i, { g with words := Function.update g.words 0 i })
  else
    let v := g.words g.front + g.words g.rear
    (v.sshiftRight 1 &&& 0x7fffffff,
      { g with words := Function.update g.words g.front v, rear := (g.rear + 1) % g.type.deg })

/-- The generator behind `n` numbers. -/
def after (g : Gen) : ℕ → Gen
  | 0 => g
  | n + 1 => (g.next).2.after n

/-- The words that a seed fills an array with. -/
def congruential (x : Word) : ℕ → Word
  | 0 => x
  | n + 1 => 1103515245 * congruential x n + 12345

def seeded (t : GenType) (x : Word) : Gen :=
  (⟨t, congruential x, 0⟩ : Gen).after (10 * t.deg)

/-- The number drawn behind `n` others. -/
def number (g : Gen) (n : ℕ) : Word := (g.after n).next.1

@[simp] theorem next_type (g : Gen) : g.next.2.type = g.type := by
  unfold next
  split <;> rfl

@[simp] theorem after_type (g : Gen) (n : ℕ) : (g.after n).type = g.type := by
  induction n generalizing g with
  | zero => rfl
  | succ n ih => rw [after, ih, next_type]

theorem after_succ (g : Gen) (n : ℕ) : g.after (n + 1) = (g.after n).next.2 := by
  induction n generalizing g with
  | zero => rfl
  | succ n ih => rw [after, ih, ← after]

/-- The rear pointer stays within the words. -/
def Ok (g : Gen) : Prop := g.type ≠ .type0 → g.rear < g.type.deg

theorem Ok.next {g : Gen} (h : g.Ok) : g.next.2.Ok := by
  intro ht
  rw [next_type] at ht ⊢
  unfold Gen.next
  rw [if_neg ht]
  exact Nat.mod_lt _ (by have := (GenType.sep_pos ht); omega)

@[simp] theorem seeded_type (t : GenType) (x : Word) : (seeded t x).type = t := after_type _ _

end Gen

/-! ## The current array -/

variable {r r' : Rand} {a b c : ℕ} {g gc : Gen}

/-- Array `a` is current, and stands for the generator `g`. -/
structure Running (r : Rand) (a : ℕ) (g : Gen) : Prop where
  state : r.state = (a, 1)
  type : r.randType = g.type
  deg : r.randDeg = g.type.deg
  sep : r.randSep = g.type.sep
  endPtr : r.endPtr = (a, 1 + (g.type.deg : ℤ))
  words : ∀ i : ℕ, i < max 1 g.type.deg → r.mem a (1 + i) = g.words i
  ok : g.Ok
  rptr : g.type ≠ .type0 → r.rptr = (a, 1 + (g.rear : ℤ))
  fptr : g.type ≠ .type0 → r.fptr = (a, 1 + (g.front : ℤ))

/-- Nothing is written but words of `a` from word 1 on. -/
def Frame (a : ℕ) (r r' : Rand) : Prop := ∀ b j, b ≠ a ∨ j = 0 → r'.mem b j = r.mem b j

theorem Frame.refl (a : ℕ) (r : Rand) : Frame a r r := fun _ _ _ => rfl

theorem Frame.trans {r'' : Rand} (h : Frame a r r') (h' : Frame a r' r'') : Frame a r r'' :=
  fun b j hb => (h' b j hb).trans (h b j hb)

theorem store_mem (r : Rand) (a : ℕ) (i : ℤ) (v : Word) (b : ℕ) (j : ℤ) :
    (r.store (a, i) v).mem b j = if b = a ∧ j = i then v else r.mem b j := by
  show Function.update r.mem a (Function.update (r.mem a) i v) b j = _
  by_cases hb : b = a
  · subst hb
    by_cases hj : j = i
    · simp [hj]
    · simp [hj]
  · simp [hb]

theorem store_frame (r : Rand) (a i : ℕ) (v : Word) : Frame a r (r.store (a, 1 + i) v) := by
  intro b j hb
  rw [store_mem, if_neg]
  rintro ⟨rfl, rfl⟩
  rcases hb with hb | hb
  · exact hb rfl
  · omega

/-- A word stored in the array and in its generator. -/
theorem store_words {w : ℕ → Word} {n : ℕ} (h : ∀ i : ℕ, i < n → r.mem a (1 + i) = w i) (k : ℕ)
    (v : Word) (i : ℕ) (hi : i < n) :
    (r.store (a, 1 + k) v).mem a (1 + i) = Function.update w k v i := by
  rw [store_mem]
  by_cases hik : i = k
  · subst hik
    simp
  · rw [if_neg (by omega), Function.update_of_ne hik, h i hi]

theorem Gen.Ok.front_lt (h : g.Ok) (ht : g.type ≠ .type0) : g.front < g.type.deg := by
  have := h ht
  exact Nat.mod_lt _ (by omega)

/-- Where the front pointer wraps the rear pointer does not, and the other way round. -/
theorem Gen.Ok.wrap (h : g.Ok) (ht : g.type ≠ .type0) :
    (g.front + 1 < g.type.deg ∨ (g.front + 1 = g.type.deg ∧ g.rear + 1 < g.type.deg)) ∧
      ((g.rear + 1) % g.type.deg + g.type.sep) % g.type.deg = (g.front + 1) % g.type.deg := by
  have hr := h ht
  obtain ⟨hs, hsd⟩ := GenType.sep_pos ht
  have hf := h.front_lt ht
  refine ⟨?_, ?_⟩
  · have hmod : g.front = g.rear + g.type.sep ∨ g.front + g.type.deg = g.rear + g.type.sep := by
      unfold Gen.front
      by_cases hlt : g.rear + g.type.sep < g.type.deg
      · exact .inl (Nat.mod_eq_of_lt hlt)
      · rw [Nat.mod_eq_sub_mod (by omega), Nat.mod_eq_of_lt (by omega)]
        omega
    omega
  · rw [Gen.front, Nat.mod_add_mod, Nat.mod_add_mod]
    congr 1
    omega

theorem random_running (h : Running r a g) :
    (random r).1 = g.next.1 ∧ Running (random r).2 a g.next.2 ∧ Frame a r (random r).2 := by
  have hok := h.ok.next
  unfold random
  by_cases ht : g.type = .type0
  · have hp : r.at' 0 = (a, 1 + ((0 : ℕ) : ℤ)) := by
      rw [Rand.at', h.state]
      rfl
    have hw : r.load (r.at' 0) = g.words 0 := by
      rw [hp]
      exact h.words 0 (by omega)
    rw [if_pos (h.type.trans ht)]
    dsimp only
    rw [hw, hp]
    unfold Gen.next at hok ⊢
    rw [if_pos ht] at hok ⊢
    exact ⟨rfl, ⟨h.state, h.type, h.deg, h.sep, h.endPtr, store_words h.words 0 _, hok,
      fun h' => absurd ht h', fun h' => absurd ht h'⟩, store_frame r a 0 _⟩
  · have hf := h.ok.front_lt ht
    have hr := h.ok ht
    obtain ⟨hwrap, hnext⟩ := h.ok.wrap ht
    have hlf : r.load r.fptr = g.words g.front := by
      rw [h.fptr ht]
      exact h.words _ (by omega)
    have hlr : r.load r.rptr = g.words g.rear := by
      rw [h.rptr ht]
      exact h.words _ (by omega)
    rw [if_neg (by rw [h.type]; exact ht)]
    dsimp only
    rw [hlf, hlr]
    obtain ⟨r₁, hr₁⟩ : ∃ r₁, r.store r.fptr (g.words g.front + g.words g.rear) = r₁ := ⟨_, rfl⟩
    have hfp : r₁.fptr = (a, 1 + (g.front : ℤ)) := by rw [← hr₁]; exact h.fptr ht
    have hrp : r₁.rptr = (a, 1 + (g.rear : ℤ)) := by rw [← hr₁]; exact h.rptr ht
    have hend : r₁.endPtr = (a, 1 + (g.type.deg : ℤ)) := by rw [← hr₁]; exact h.endPtr
    have hst : r₁.state = (a, 1) := by rw [← hr₁]; exact h.state
    have hframe : Frame a r r₁ := by
      rw [← hr₁, h.fptr ht]
      exact store_frame r a _ _
    have hwords : ∀ i : ℕ, i < max 1 g.type.deg → r₁.mem a (1 + i) =
        Function.update g.words g.front (g.words g.front + g.words g.rear) i := by
      rw [← hr₁, h.fptr ht]
      exact store_words h.words _ _
    have hstored : r₁.load r₁.fptr = g.words g.front + g.words g.rear := by
      rw [hfp, Rand.load, hwords _ (by omega), Function.update_self]
    rw [hr₁, hstored]
    unfold Gen.next at hok ⊢
    rw [if_neg ht] at hok ⊢
    have hfield : ∀ fp rp : Ptr, fp = (a, 1 + (((g.front + 1) % g.type.deg : ℕ) : ℤ)) →
        rp = (a, 1 + (((g.rear + 1) % g.type.deg : ℕ) : ℤ)) →
        Running { r₁ with fptr := fp, rptr := rp } a
          { g with
            words := Function.update g.words g.front (g.words g.front + g.words g.rear)
            rear := (g.rear + 1) % g.type.deg } := by
      intro fp rp hfp hrp
      refine ⟨hst, by rw [← hr₁]; exact h.type, by rw [← hr₁]; exact h.deg,
        by rw [← hr₁]; exact h.sep, hend, hwords, hok, fun _ => hrp, fun _ => ?_⟩
      show fp = (a, 1 + ((((g.rear + 1) % g.type.deg + g.type.sep) % g.type.deg : ℕ) : ℤ))
      rw [hnext]
      exact hfp
    have hend2 : r₁.endPtr.2 = 1 + (g.type.deg : ℤ) := by rw [hend]
    have hfp2 : r₁.fptr.2 = 1 + (g.front : ℤ) := by rw [hfp]
    have hrp2 : r₁.rptr.2 = 1 + (g.rear : ℤ) := by rw [hrp]
    rcases hwrap with hlt | ⟨heq, hlt⟩
    · have hfp' : (r₁.fptr.1, r₁.fptr.2 + 1) = (a, 1 + (((g.front + 1) % g.type.deg : ℕ) : ℤ)) := by
        rw [hfp, Nat.mod_eq_of_lt hlt]
        push_cast
        rw [Int.add_assoc]
      rw [if_neg (by omega)]
      by_cases hre : r₁.endPtr.2 ≤ r₁.rptr.2 + 1
      · rw [if_pos hre]
        refine ⟨rfl, hfield _ _ hfp' ?_, hframe⟩
        rw [hst, show g.rear + 1 = g.type.deg by omega, Nat.mod_self]
        rfl
      · rw [if_neg hre]
        refine ⟨rfl, hfield _ _ hfp' ?_, hframe⟩
        rw [hrp, Nat.mod_eq_of_lt (by omega)]
        push_cast
        rw [Int.add_assoc]
    · rw [if_pos (by omega)]
      refine ⟨rfl, hfield _ _ ?_ ?_, hframe⟩
      · rw [hst, heq, Nat.mod_self]
        rfl
      · rw [hrp, Nat.mod_eq_of_lt hlt]
        push_cast
        rw [Int.add_assoc]

theorem cycle_running (h : Running r a g) (n : ℕ) :
    Running (cycle n r) a (g.after n) ∧ Frame a r (cycle n r) := by
  induction n generalizing r g with
  | zero => exact ⟨h, .refl a r⟩
  | succ n ih =>
    obtain ⟨-, hn, hf⟩ := random_running h
    obtain ⟨hr, hf'⟩ := ih hn
    exact ⟨hr, hf.trans hf'⟩

/-- What a routine that writes only words keeps. -/
def SameVars (r r' : Rand) : Prop :=
  r'.state = r.state ∧ r'.randType = r.randType ∧ r'.randDeg = r.randDeg ∧
    r'.randSep = r.randSep ∧ r'.endPtr = r.endPtr

theorem fill_ok (hs : r.state = (a, 1)) (x : Word) (h0 : r.mem a 1 = x) (n : ℕ) :
    SameVars r (fill r n) ∧ Frame a r (fill r n) ∧
      ∀ i : ℕ, i < n + 1 → (fill r n).mem a (1 + i) = Gen.congruential x i := by
  induction n with
  | zero =>
    refine ⟨⟨rfl, rfl, rfl, rfl, rfl⟩, .refl a r, fun i hi => ?_⟩
    rw [show i = 0 by omega]
    exact h0
  | succ n ih =>
    obtain ⟨hv, hf, hw⟩ := ih
    have hst : (fill r n).state = (a, 1) := hv.1.trans hs
    have hp : (fill r n).at' (n + 1) = (a, 1 + ((n + 1 : ℕ) : ℤ)) := by
      rw [Rand.at', hst]
      rfl
    have hl : (fill r n).load ((fill r n).at' n) = Gen.congruential x n := by
      rw [Rand.at', hst]
      exact hw n (by omega)
    rw [fill, hl, hp]
    refine ⟨hv, hf.trans (store_frame _ a (n + 1) _), fun i hi => ?_⟩
    rw [store_mem]
    by_cases hin : i = n + 1
    · rw [hin, if_pos ⟨rfl, rfl⟩]
      rfl
    · rw [if_neg (by omega), hw i (by omega)]

/-- `srandom`, once the type of the current array is set. -/
theorem srandom_running {t : GenType} (hs : r.state = (a, 1)) (ht : r.randType = t)
    (hd : r.randDeg = t.deg) (hsep : r.randSep = t.sep) (he : r.endPtr = (a, 1 + (t.deg : ℤ)))
    (x : Word) : Running (srandom x r) a (.seeded t x) ∧ Frame a r (srandom x r) := by
  have hp : r.at' 0 = (a, 1 + ((0 : ℕ) : ℤ)) := by
    rw [Rand.at', hs]
    rfl
  have hframe := store_frame r a 0 x
  unfold srandom
  by_cases h0 : t = .type0
  · subst h0
    rw [if_pos ht, hp]
    refine ⟨⟨hs, ht, hd, hsep, he, fun i hi => ?_, nofun, fun h => absurd rfl h,
      fun h => absurd rfl h⟩, hframe⟩
    have hi0 : i = 0 := by
      change i < max 1 0 at hi
      omega
    rw [hi0, store_mem, if_pos ⟨rfl, rfl⟩]
    rfl
  · obtain ⟨hsep0, hsepd⟩ := GenType.sep_pos h0
    rw [if_neg (by rw [ht]; exact h0)]
    dsimp only
    rw [hp, hd]
    obtain ⟨hv, hf, hw⟩ := fill_ok (r := r.store (a, 1 + ((0 : ℕ) : ℤ)) x) (a := a) hs x
      (by rw [store_mem, if_pos ⟨rfl, rfl⟩]) (t.deg - 1)
    rw [show ((t.deg : ℤ) - 1).toNat = t.deg - 1 by omega]
    generalize fill (r.store (a, 1 + ((0 : ℕ) : ℤ)) x) (t.deg - 1) = r₁ at *
    obtain ⟨hst, htt, hdd, hss, hee⟩ := hv
    have hcount : (10 * r₁.randDeg).toNat = 10 * t.deg := by
      rw [show r₁.randDeg = (t.deg : ℤ) from hdd.trans hd]
      omega
    rw [hcount]
    have hstart : Running { r₁ with fptr := r₁.at' r₁.randSep, rptr := r₁.at' 0 } a
        ⟨t, Gen.congruential x, 0⟩ := by
      refine ⟨hst.trans hs, htt.trans ht, hdd.trans hd, hss.trans hsep, hee.trans he,
        fun i hi => hw i (by change i < max 1 t.deg at hi; omega), fun _ => ?_, fun _ => ?_,
        fun _ => ?_⟩
      · show 0 < t.deg
        omega
      · show r₁.at' 0 = (a, 1 + 0)
        rw [Rand.at', hst.trans hs]
      · show r₁.at' r₁.randSep = (a, 1 + (((0 + t.sep) % t.deg : ℕ) : ℤ))
        rw [Rand.at', show r₁.state = _ from hst.trans hs, show r₁.randSep = _ from hss.trans hsep,
          Nat.zero_add, Nat.mod_eq_of_lt hsepd]
    obtain ⟨hrun, hfc⟩ := cycle_running hstart (10 * t.deg)
    exact ⟨hrun, (hframe.trans hf).trans hfc⟩

/-! ## Leaving an array and finding it again -/

/-- Word 0 of an array that stands for `g`. -/
def Gen.word (g : Gen) : Word :=
  if g.type = .type0 then 0 else BitVec.ofNat 32 (5 * g.rear + g.type.val)

/-- The words of an array that is not current stand for `g`. -/
structure Resting (m : ℤ → Word) (g : Gen) : Prop where
  word : m 0 = g.word
  words : ∀ i : ℕ, i < max 1 g.type.deg → m (1 + i) = g.words i
  ok : g.Ok

theorem Running.position (h : Running r a g) : r.position = g.word := by
  unfold Rand.position Gen.word
  by_cases ht : g.type = .type0
  · rw [if_pos (h.type.trans ht), if_pos ht, h.type, ht]
    rfl
  · rw [if_neg (by rw [h.type]; exact ht), if_neg ht, h.rptr ht, h.state, h.type]
    have : 5 * (1 + (g.rear : ℤ) - 1) + (g.type.val : ℤ) = ((5 * g.rear + g.type.val : ℕ) : ℤ) := by
      push_cast
      omega
    dsimp only
    rw [this, BitVec.ofInt_natCast]

theorem save_mem (h : Running r a g) (b : ℕ) (j : ℤ) :
    (save r).mem b j = if b = a ∧ j = 0 then g.word else r.mem b j := by
  rw [save, h.position, show r.at' (-1) = (a, 0) by rw [Rand.at', h.state]; rfl, store_mem]

theorem Running.save (h : Running r a g) : Running (save r) a g :=
  ⟨h.state, h.type, h.deg, h.sep, h.endPtr, fun i hi => by
    rw [save_mem h, if_neg (by omega), h.words i hi], h.ok, h.rptr, h.fptr⟩

/-- The array that is left. -/
theorem save_resting (h : Running r a g) : Resting ((RandState.save r).mem a) g :=
  ⟨by rw [save_mem h, if_pos ⟨rfl, rfl⟩], h.save.words, h.ok⟩

theorem Gen.word_toInt (h : g.Ok) :
    g.word.toInt = if g.type = .type0 then (0 : ℤ) else 5 * g.rear + g.type.val := by
  unfold Gen.word
  by_cases ht : g.type = .type0
  · rw [if_pos ht, if_pos ht]
    rfl
  · rw [if_neg ht, if_neg ht]
    have := h ht
    have := g.type.deg_le
    have := g.type.val_lt
    rw [BitVec.toInt_eq_toNat_of_lt (by rw [BitVec.toNat_ofNat, Nat.mod_eq_of_lt (by omega)]; omega), BitVec.toNat_ofNat,
      Nat.mod_eq_of_lt (by omega)]
    push_cast
    rfl

/-- `setstate` to an array that stands for `g`; to the current one too, if its word 0 is up to
date. -/
theorem setstate_running (h : Running r c gc) (hg : Resting (r.mem a) g) (hc : a = c → g = gc) :
    Running (setstate a r) a g ∧ (setstate a r).mem = (save r).mem := by
  have hrest : Resting ((save r).mem a) g := by
    by_cases hac : a = c
    · rw [hac, hc hac]
      exact save_resting h
    · have hm : (save r).mem a = r.mem a := by
        funext j
        rw [save_mem h, if_neg (fun hj => hac hj.1)]
      rw [hm]
      exact hg
  have hword := Gen.word_toInt hg.ok
  unfold setstate
  dsimp only
  rw [hg.word, hword]
  by_cases ht : g.type = .type0
  · rw [if_pos ht]
    refine ⟨?_, rfl⟩
    exact ⟨rfl, ht.symm, by rw [ht]; rfl, by rw [ht]; rfl, by rw [ht]; rfl, hrest.words, hg.ok,
      fun h' => absurd ht h', fun h' => absurd ht h'⟩
  · have hr := hg.ok ht
    have hv := g.type.val_lt
    obtain ⟨hs0, hsd⟩ := GenType.sep_pos ht
    rw [if_neg ht]
    have htype : (5 * (g.rear : ℤ) + g.type.val).tmod 5 = g.type.val := by
      rw [Int.tmod_eq_emod_of_nonneg (by omega)]
      omega
    have hrear : (5 * (g.rear : ℤ) + g.type.val).tdiv 5 = g.rear := by
      rw [Int.tdiv_eq_ediv_of_nonneg (by omega)]
      omega
    have hfront : ((g.rear : ℤ) + g.type.sep).tmod g.type.deg = g.front := by
      rw [Int.tmod_eq_emod_of_nonneg (by omega), Gen.front]
      push_cast
      rfl
    rw [htype, hrear, GenType.ofInt_val]
    dsimp only
    rw [if_pos ht, hfront]
    exact ⟨⟨rfl, rfl, rfl, rfl, rfl, hrest.words, hg.ok, fun _ => rfl, fun _ => rfl⟩, rfl⟩

end RandState
