import Mathlib.Data.List.Induction
import Mathlib.Logic.Function.Basic
import Mathlib.Tactic.Common

/-!
# Trees of pointers in a store

A store gives each address a block of pointers, and the zero pointer leads nowhere. A forest is
a family of roots into one store. A position is a root and the indices that lead down from it.

## Main definitions

* `BlockTree.walk`: the pointer that a list of indices leads to
* `Forest`, `Forest.ptr`: roots and store, the pointer at a position
* `Above`: one position is on the way to another
* `Shape`, `Shape.Valid`: how deep each root goes and how wide a block is, the positions
* `Simple`: below an address, no address is used at two positions
* `Forest.Distinct`: no address is used at two positions

## Main results

* `walk_congr`: a walk sees only the blocks on its way
* `ptr_setBlock_of_fresh`: a block that the forest does not use may be written
* `ptr_setRoot`, `ptr_setEntry`: a fresh empty block hung where there was none is seen at its own
  position only
* `Forest.Distinct.graft`: and no address is then used twice
-/

namespace BlockTree

variable {ι A : Type} [Zero A] [DecidableEq A]

/-- The pointer that the indices lead to from `a`. -/
def walk (m : A → ℕ → A) : A → List ℕ → A
  | a, [] => a
  | a, i :: l => if a = 0 then 0 else walk m (m a i) l

@[simp] theorem walk_nil (m : A → ℕ → A) (a : A) : walk m a [] = a := rfl

theorem walk_cons (m : A → ℕ → A) {a : A} (ha : a ≠ 0) (i : ℕ) (l : List ℕ) :
    walk m a (i :: l) = walk m (m a i) l := if_neg ha

@[simp] theorem walk_zero (m : A → ℕ → A) (l : List ℕ) : walk m 0 l = 0 := by
  cases l with
  | nil => rfl
  | cons i l => exact if_pos rfl

theorem walk_append (m : A → ℕ → A) (a : A) (l l' : List ℕ) :
    walk m a (l ++ l') = walk m (walk m a l) l' := by
  induction l generalizing a with
  | nil => rfl
  | cons i l ih =>
    by_cases ha : a = 0
    · subst ha
      rw [walk_zero, walk_zero, walk_zero]
    · rw [List.cons_append, walk_cons m ha, walk_cons m ha, ih]

/-! ## One tree -/

section Tree

variable {m m' : A → ℕ → A} {a : A} {n h i : ℕ} {d : List ℕ}

/-- At most `h` indices, each of a block of `n` pointers. -/
def Within (n h : ℕ) (d : List ℕ) : Prop := d.length ≤ h ∧ ∀ i ∈ d, i < n

theorem within_nil : Within n h [] := ⟨Nat.zero_le _, fun _ h => absurd h List.not_mem_nil⟩

theorem within_cons : Within n (h + 1) (i :: d) ↔ i < n ∧ Within n h d := by
  constructor
  · rintro ⟨hl, hi⟩
    exact ⟨hi i List.mem_cons_self, Nat.le_of_succ_le_succ hl,
      fun j hj => hi j (List.mem_cons_of_mem _ hj)⟩
  · rintro ⟨hi, hl, hd⟩
    refine ⟨Nat.succ_le_succ hl, fun j hj => ?_⟩
    rcases List.mem_cons.mp hj with rfl | hj
    · exact hi
    · exact hd j hj

theorem Within.mono {h' : ℕ} (hd : Within n h d) (hle : h ≤ h') : Within n h' d :=
  ⟨Nat.le_trans hd.1 hle, hd.2⟩

/-- Below `a` no address is used at two positions. -/
def Simple (m : A → ℕ → A) (a : A) (n h : ℕ) : Prop :=
  ∀ d d', Within n h d → Within n h d' → walk m a d = walk m a d' → walk m a d ≠ 0 → d = d'

/-- A walk sees only the blocks on its way. -/
theorem walk_congr (hm : ∀ d', d' <+: d → d'.length < d.length → walk m a d' ≠ 0 →
    m' (walk m a d') = m (walk m a d')) : walk m' a d = walk m a d := by
  induction d generalizing a with
  | nil => rfl
  | cons i d ih =>
    by_cases ha : a = 0
    · rw [ha, walk_zero, walk_zero]
    · have h0 : m' a = m a := hm [] List.nil_prefix (by simp) ha
      rw [walk_cons m' ha, walk_cons m ha, h0]
      refine ih fun d' hp hlt hz => ?_
      have := hm (i :: d') (List.cons_prefix_cons.mpr ⟨rfl, hp⟩) (by simpa using hlt)
      rw [walk_cons m ha] at this
      exact this hz

/-- Walks of at most `h` steps agree if the blocks above their ends do. -/
theorem walk_congr_within (hm : ∀ d', Within n h d' → walk m a d' ≠ 0 →
    m' (walk m a d') = m (walk m a d')) (hd : Within n (h + 1) d) : walk m' a d = walk m a d := by
  refine walk_congr fun d' hp hlt hz => hm d' ⟨?_, fun i hi => hd.2 i (hp.subset hi)⟩ hz
  have := hd.1
  omega

theorem Simple.congr (hs : Simple m a n h) (hm : ∀ d, Within n h d → walk m' a d = walk m a d) :
    Simple m' a n h := by
  intro d d' hd hd' he hz
  rw [hm d hd, hm d' hd'] at he
  rw [hm d hd] at hz
  exact hs d d' hd hd' he hz

theorem Simple.child (hs : Simple m a n (h + 1)) (ha : a ≠ 0) (hi : i < n) :
    Simple m (m a i) n h := by
  intro d d' hd hd' he hz
  have := hs (i :: d) (i :: d') (within_cons.mpr ⟨hi, hd⟩) (within_cons.mpr ⟨hi, hd'⟩)
  rw [walk_cons m ha, walk_cons m ha] at this
  exact (List.cons.inj (this he hz)).2

end Tree

/-! ## Forests -/

/-- Roots into a store. -/
structure Forest (ι A : Type) where
  root : ι → A
  m : A → ℕ → A

/-- A root and the indices below it. -/
abbrev Pos (ι : Type) : Type := ι × List ℕ

theorem concat_inj {k k' : ι} {l l' : List ℕ} {i j : ℕ} :
    ((k', l' ++ [j]) : Pos ι) = (k, l ++ [i]) ↔ (k', l') = (k, l) ∧ j = i := by
  constructor
  · intro h
    obtain ⟨rfl, hl⟩ := Prod.mk.inj h
    obtain ⟨rfl, hi⟩ := List.append_inj' hl rfl
    exact ⟨rfl, List.singleton_inj.mp hi⟩
  · rintro ⟨h, rfl⟩
    obtain ⟨rfl, rfl⟩ := Prod.mk.inj h
    rfl

/-- The position `q` is on the way to `p`, and is not `p`. -/
def Above (q p : Pos ι) : Prop := q.1 = p.1 ∧ q.2 <+: p.2 ∧ q.2.length < p.2.length

theorem above_append {k : ι} {l l' : List ℕ} (h : l' ≠ []) : Above (k, l) (k, l ++ l') := by
  refine ⟨rfl, List.prefix_append _ _, ?_⟩
  have := List.length_pos_iff.mpr h
  show l.length < (l ++ l').length
  rw [List.length_append]
  omega

/-- How many levels of blocks are below each root, and how many pointers a block has. -/
structure Shape (ι : Type) where
  depth : ι → ℕ
  fan : ℕ

/-- The positions of a shape. -/
def Shape.Valid (S : Shape ι) (p : Pos ι) : Prop :=
  p.2.length ≤ S.depth p.1 ∧ ∀ i ∈ p.2, i < S.fan

theorem Shape.Valid.of_append {S : Shape ι} {k : ι} {l l' : List ℕ}
    (h : S.Valid (k, l ++ l')) : S.Valid (k, l) := by
  obtain ⟨hl, hi⟩ := h
  refine ⟨?_, fun i hm => hi i (List.mem_append_left _ hm)⟩
  rw [List.length_append] at hl
  exact Nat.le_trans (Nat.le_add_right _ _) hl

namespace Forest

variable {S : Shape ι} {t t' : Forest ι A} {p q : Pos ι} {a b : A}

/-- The pointer at a position. -/
def ptr (t : Forest ι A) (p : Pos ι) : A := walk t.m (t.root p.1) p.2

@[simp] theorem ptr_root (t : Forest ι A) (k : ι) : t.ptr (k, []) = t.root k := rfl

theorem ptr_append (t : Forest ι A) (k : ι) (l l' : List ℕ) :
    t.ptr (k, l ++ l') = walk t.m (t.ptr (k, l)) l' := walk_append t.m _ l l'

theorem ptr_concat (t : Forest ι A) {k : ι} {l : List ℕ} (h : t.ptr (k, l) ≠ 0) (i : ℕ) :
    t.ptr (k, l ++ [i]) = t.m (t.ptr (k, l)) i := by
  rw [ptr_append, walk_cons _ h, walk_nil]

theorem ptr_concat_of_zero (t : Forest ι A) {k : ι} {l : List ℕ} (h : t.ptr (k, l) = 0) (i : ℕ) :
    t.ptr (k, l ++ [i]) = 0 := by
  rw [ptr_append, h, walk_zero]

/-- No address is used at two positions. -/
def Distinct (S : Shape ι) (t : Forest ι A) : Prop :=
  ∀ p q, S.Valid p → S.Valid q → t.ptr p = t.ptr q → t.ptr p ≠ 0 → p = q

/-- The address is used at no position. -/
def Fresh (S : Shape ι) (t : Forest ι A) (a : A) : Prop := a ≠ 0 ∧ ∀ p, S.Valid p → t.ptr p ≠ a

/-- The block at `a` is written. -/
def setBlock (t : Forest ι A) (a : A) (w : ℕ → A) : Forest ι A :=
  { t with m := Function.update t.m a w }

/-- The pointer `i` of the block at `b` is written. -/
def setEntry (t : Forest ι A) (b : A) (i : ℕ) (a : A) : Forest ι A :=
  t.setBlock b (Function.update (t.m b) i a)

omit [Zero A] in
theorem setBlock_m_self (t : Forest ι A) (a : A) (w : ℕ → A) : (t.setBlock a w).m a = w := by
  show Function.update t.m a w a = w
  rw [Function.update_self]

omit [Zero A] in
theorem setBlock_m_of_ne (t : Forest ι A) (w : ℕ → A) (h : b ≠ a) :
    (t.setBlock a w).m b = t.m b := by
  show Function.update t.m a w b = t.m b
  rw [Function.update_of_ne h]

/-- A block that the forest does not use may be written. -/
theorem ptr_setBlock_of_fresh {w : ℕ → A} (ha : Fresh S t a) (hp : S.Valid p) :
    (t.setBlock a w).ptr p = t.ptr p := by
  obtain ⟨k, l⟩ := p
  induction l using List.reverseRecOn with
  | nil => rfl
  | append_singleton l i ih =>
    have hl : S.Valid (k, l) := hp.of_append
    by_cases hz : t.ptr (k, l) = 0
    · rw [ptr_concat_of_zero _ hz, ptr_concat_of_zero _ ((ih hl).trans hz)]
    · have hz' : (t.setBlock a w).ptr (k, l) ≠ 0 := by rwa [ih hl]
      rw [ptr_concat _ hz, ptr_concat _ hz', ih hl, setBlock_m_of_ne _ _ (ha.2 _ hl)]

theorem Fresh.setBlock {w : ℕ → A} (hb : Fresh S t b) (ha : Fresh S t a) :
    Fresh S (t.setBlock b w) a :=
  ⟨ha.1, fun p hp => by rw [ptr_setBlock_of_fresh hb hp]; exact ha.2 p hp⟩

theorem Distinct.congr (h : Distinct S t) (he : ∀ p, S.Valid p → t'.ptr p = t.ptr p) :
    Distinct S t' := by
  intro p q hp hq hpq hz
  rw [he p hp, he q hq] at hpq
  rw [he p hp] at hz
  exact h p q hp hq hpq hz

variable [DecidableEq ι]

/-- The root `k` is written. -/
def setRoot (t : Forest ι A) (k : ι) (a : A) : Forest ι A :=
  { t with root := Function.update t.root k a }

/-- The forest `t'` has `a` at `p` and is otherwise as `t`. -/
def Grafts (S : Shape ι) (t t' : Forest ι A) (p : Pos ι) (a : A) : Prop :=
  ∀ q, S.Valid q → t'.ptr q = if q = p then a else t.ptr q

/-- A block of zeros at the root of an empty tree is seen at the root only. -/
theorem ptr_setRoot {k : ι} (hk : t.root k = 0)
    (h0 : S.depth k ≠ 0 → ∀ i < S.fan, t.m a i = 0) :
    Grafts S t (t.setRoot k a) (k, []) a := by
  rintro ⟨k', l⟩ hq
  by_cases e : k' = k
  · subst e
    have hroot : (t.setRoot k' a).root k' = a := by
      show Function.update t.root k' a k' = a
      rw [Function.update_self]
    cases l with
    | nil => rw [if_pos rfl, ptr_root, hroot]
    | cons i l =>
      have hd : S.depth k' ≠ 0 := fun hd => by
        have := hq.1
        rw [hd] at this
        exact absurd this (by simp)
      rw [if_neg (by simp)]
      have hold : t.ptr (k', i :: l) = 0 := by rw [ptr, hk, walk_zero]
      rw [hold, ptr, hroot]
      by_cases ha : a = 0
      · rw [ha, walk_zero]
      · rw [walk_cons _ ha]
        show walk t.m (t.m a i) l = 0
        rw [h0 hd i (hq.2 i (by simp)), walk_zero]
  · rw [if_neg (by simp [e])]
    show walk t.m (Function.update t.root k a k') l = walk t.m (t.root k') l
    rw [Function.update_of_ne e]

/-- A root without levels below it may be written over. -/
theorem ptr_setRoot_leaf {k : ι} (hk : S.depth k = 0) :
    Grafts S t (t.setRoot k a) (k, []) a := by
  rintro ⟨k', l⟩ hq
  by_cases e : k' = k
  · subst e
    have hl : l = [] := List.eq_nil_of_length_eq_zero (Nat.le_zero.mp (hk ▸ hq.1))
    subst hl
    rw [if_pos rfl]
    show Function.update t.root k' a k' = a
    rw [Function.update_self]
  · rw [if_neg (by simp [e])]
    show walk t.m (Function.update t.root k a k') l = walk t.m (t.root k') l
    rw [Function.update_of_ne e]

/-- A block of zeros hung into an empty entry is seen at its own position only. -/
theorem ptr_setEntry {k : ι} {l : List ℕ} {i : ℕ} (hd : Distinct S t)
    (hv : S.Valid (k, l ++ [i])) (hb : t.ptr (k, l) ≠ 0) (hi : t.m (t.ptr (k, l)) i = 0)
    (ha : Fresh S t a)
    (h0 : l.length + 1 < S.depth k → ∀ j < S.fan, t.m a j = 0) :
    Grafts S t (t.setEntry (t.ptr (k, l)) i a) (k, l ++ [i]) a := by
  have hl : S.Valid (k, l) := hv.of_append
  set b := t.ptr (k, l) with hbdef
  set t' := t.setEntry b i a with ht'
  rintro ⟨k', l'⟩
  induction l' using List.reverseRecOn with
  | nil =>
    intro _
    rw [if_neg (by simp)]
    rfl
  | append_singleton l' j ih =>
    intro hq
    have hl' : S.Valid (k', l') := hq.of_append
    have ih := ih hl'
    by_cases e : (k', l') = (k, l ++ [i])
    · -- Below the new block: it is all zeros.
      rw [if_pos e] at ih
      have hne : (k', l' ++ [j]) ≠ (k, l ++ [i]) := by
        rw [← e]
        simp
      obtain ⟨rfl, rfl⟩ := Prod.mk.inj e
      have hold : t.ptr (k', l ++ [i]) = 0 := by rw [ptr_concat _ hb, hi]
      have hdeep : l.length + 1 < S.depth k' := by
        have := hq.1
        simp only [List.length_append, List.length_singleton] at this
        omega
      have hm : t'.m a = t.m a := setBlock_m_of_ne _ _ (ha.2 _ hl).symm
      rw [if_neg hne, ptr_concat_of_zero t hold, ptr_concat t' (by rw [ih]; exact ha.1), ih, hm]
      exact h0 hdeep j (hq.2 j (by simp))
    · rw [if_neg e] at ih
      by_cases hz : t.ptr (k', l') = 0
      · have hne : (k', l' ++ [j]) ≠ (k, l ++ [i]) := by
          intro h
          rw [(concat_inj.mp h).1] at hz
          exact hb hz
        rw [if_neg hne, ptr_concat_of_zero t hz, ptr_concat_of_zero t' (ih.trans hz)]
      · rw [ptr_concat t hz, ptr_concat t' (by rwa [ih]), ih]
        by_cases hsame : t.ptr (k', l') = b
        · have epos : (k', l') = (k, l) := hd _ _ hl' hl hsame hz
          have hm : t'.m b = Function.update (t.m b) i a := setBlock_m_self ..
          rw [hsame, hm]
          by_cases hji : j = i
          · rw [hji, if_pos (concat_inj.mpr ⟨epos, rfl⟩), Function.update_self]
          · rw [if_neg fun h => hji (concat_inj.mp h).2, Function.update_of_ne hji]
        · have hne : (k', l' ++ [j]) ≠ (k, l ++ [i]) := by
            intro h
            rw [(concat_inj.mp h).1] at hsame
            exact hsame rfl
          have hm : t'.m (t.ptr (k', l')) = t.m (t.ptr (k', l')) := setBlock_m_of_ne _ _ hsame
          rw [if_neg hne, hm]

/-- With a fresh address hung in, still no address is used twice. -/
theorem Distinct.graft (hd : Distinct S t) (hg : Grafts S t t' p a) (ha : Fresh S t a) :
    Distinct S t' := by
  intro q r hq hr hqr hz
  rw [hg q hq] at hqr hz
  rw [hg r hr] at hqr
  by_cases eq : q = p
  · by_cases er : r = p
    · rw [eq, er]
    · rw [if_pos eq, if_neg er] at hqr
      exact absurd hqr.symm (ha.2 r hr)
  · rw [if_neg eq] at hqr hz
    by_cases er : r = p
    · rw [if_pos er] at hqr
      exact absurd hqr (ha.2 q hq)
    · rw [if_neg er] at hqr
      exact hd q r hq hr hqr hz

end Forest

end BlockTree
