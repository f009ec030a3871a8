import Mathlib

/-!
# Fields reversed in place

A field is a run of `w` cells of a memory, and reversing it twice restores it. A loop that reverses
the fields of one item after the other reverses them all, and a second loop that does the same
restores the memory, when each item is found again where it was: the items have disjoint regions,
and each step depends on the region of its own item only.

## Main definitions

* `reverse w o m`: the field at `o` reversed
* `reverseAll w os m`: several fields reversed
* `gather F n`: the fields of the first `n` items
* `Regions R F n`: the fields of the first `n` items lie in disjoint regions

## Main results

* `reverseAll_self`: fields apart from each other are restored by a second reversal
* `reverseAll_eq_self_iff`: when a reversal leaves the memory as it is
* `Regions.foldl_out`, `Regions.foldl_back`: the two loops
-/

namespace Reversal

variable {α : Type*} {w o a b k n : ℕ} {os ps : List ℕ} {m m' : ℕ → α}

/-- The cells from `o` up to `o + w` in the opposite order. -/
def reverse (w o : ℕ) (m : ℕ → α) : ℕ → α :=
  fun k => if o ≤ k ∧ k < o + w then m (2 * o + w - 1 - k) else m k

/-- Two fields do not overlap. -/
def Apart (w a b : ℕ) : Prop := a + w ≤ b ∨ b + w ≤ a

/-- The field at `o` lies in a set of cells. -/
def Within (w o : ℕ) (S : Set ℕ) : Prop := ∀ k, o ≤ k → k < o + w → k ∈ S

theorem Apart.symm (h : Apart w a b) : Apart w b a := Or.symm h

theorem Within.apart {S T : Set ℕ} (hw : 0 < w) (ha : Within w a S) (hb : Within w b T)
    (h : Disjoint S T) : Apart w a b := by
  by_contra hab
  rw [Set.disjoint_left] at h
  unfold Apart at hab
  -- the larger of the two offsets is a cell of both fields
  exact h (ha (max a b) (by omega) (by omega)) (hb (max a b) (by omega) (by omega))

theorem reverse_inside (h₁ : o ≤ k) (h₂ : k < o + w) :
    reverse w o m k = m (2 * o + w - 1 - k) := by
  simp [reverse, h₁, h₂]

theorem reverse_outside (h : k < o ∨ o + w ≤ k) : reverse w o m k = m k := by
  simp only [reverse]
  rw [if_neg (by omega)]

@[simp] theorem reverse_reverse : reverse w o (reverse w o m) = m := by
  funext k
  by_cases h : o ≤ k ∧ k < o + w
  · rw [reverse_inside h.1 h.2, reverse_inside (by omega) (by omega)]
    congr 1
    omega
  · rw [reverse_outside (by omega), reverse_outside (by omega)]

theorem reverse_comm (h : Apart w a b) :
    reverse w a (reverse w b m) = reverse w b (reverse w a m) := by
  unfold Apart at h
  funext k
  by_cases ha : a ≤ k ∧ k < a + w
  · rw [reverse_inside ha.1 ha.2, reverse_outside (by omega), reverse_outside (by omega),
      reverse_inside ha.1 ha.2]
  · rw [reverse_outside (by omega)]
    by_cases hb : b ≤ k ∧ k < b + w
    · rw [reverse_inside hb.1 hb.2, reverse_inside hb.1 hb.2, reverse_outside (by omega)]
    · rw [reverse_outside (by omega), reverse_outside (by omega), reverse_outside (by omega)]

/-- The fields of `os` reversed, the last one first. -/
def reverseAll (w : ℕ) (os : List ℕ) (m : ℕ → α) : ℕ → α := os.foldr (reverse w) m

@[simp] theorem reverseAll_nil : reverseAll w [] m = m := rfl

@[simp] theorem reverseAll_cons : reverseAll w (o :: os) m = reverse w o (reverseAll w os m) := rfl

theorem reverseAll_append : reverseAll w (os ++ ps) m = reverseAll w os (reverseAll w ps m) := by
  simp [reverseAll, List.foldr_append]

theorem reverseAll_outside (h : ∀ o ∈ os, k < o ∨ o + w ≤ k) : reverseAll w os m k = m k := by
  induction os with
  | nil => rfl
  | cons o os ih =>
    rw [reverseAll_cons, reverse_outside (h o (by simp)), ih fun p hp => h p (by simp [hp])]

theorem reverse_reverseAll_comm (h : ∀ b ∈ os, Apart w a b) :
    reverse w a (reverseAll w os m) = reverseAll w os (reverse w a m) := by
  induction os with
  | nil => rfl
  | cons o os ih =>
    rw [reverseAll_cons, reverseAll_cons, reverse_comm (h o (by simp)),
      ih fun p hp => h p (by simp [hp])]

theorem reverseAll_comm (h : ∀ a ∈ os, ∀ b ∈ ps, Apart w a b) :
    reverseAll w os (reverseAll w ps m) = reverseAll w ps (reverseAll w os m) := by
  induction os with
  | nil => rfl
  | cons o os ih =>
    rw [reverseAll_cons, reverseAll_cons, ih fun p hp => h p (by simp [hp]),
      reverse_reverseAll_comm (h o (by simp))]

theorem reverseAll_self (h : os.Pairwise (Apart w)) :
    reverseAll w os (reverseAll w os m) = m := by
  induction os generalizing m with
  | nil => rfl
  | cons o os ih =>
    rw [List.pairwise_cons] at h
    rw [reverseAll_cons, reverseAll_cons, ← reverse_reverseAll_comm h.1, reverse_reverse, ih h.2]

theorem reverseAll_inside (h : os.Pairwise (Apart w)) (ho : o ∈ os) (h₁ : o ≤ k)
    (h₂ : k < o + w) : reverseAll w os m k = reverse w o m k := by
  induction os with
  | nil => cases ho
  | cons p os ih =>
    rw [List.pairwise_cons] at h
    rw [reverseAll_cons]
    rcases List.mem_cons.1 ho with rfl | ho
    · rw [reverse_inside h₁ h₂, reverse_inside h₁ h₂, reverseAll_outside]
      intro b hb
      have := h.1 b hb
      unfold Apart at this
      omega
    · -- a cell of one field is in no other
      have hp := h.1 o ho
      unfold Apart at hp
      rw [reverse_outside (by omega), ih h.2 ho]

/-- A reversal changes nothing exactly when every field reads the same both ways. -/
theorem reverseAll_eq_self_iff (h : os.Pairwise (Apart w)) :
    reverseAll w os m = m ↔ ∀ o ∈ os, reverse w o m = m := by
  constructor
  · intro hm o ho
    funext k
    by_cases hk : o ≤ k ∧ k < o + w
    · rw [← reverseAll_inside h ho hk.1 hk.2, hm]
    · exact reverse_outside (by omega)
  · intro hm
    clear h
    induction os with
    | nil => rfl
    | cons o os ih =>
      rw [reverseAll_cons, ih fun p hp => hm p (by simp [hp]), hm o (by simp)]

/-- The fields of the first `n` items. -/
def gather (F : ℕ → List ℕ) : ℕ → List ℕ
  | 0 => []
  | n + 1 => F n ++ gather F n

theorem mem_gather {F : ℕ → List ℕ} : o ∈ gather F n ↔ ∃ i < n, o ∈ F i := by
  induction n with
  | zero => simp [gather]
  | succ n ih =>
    simp only [gather, List.mem_append, ih, Nat.lt_succ_iff_lt_or_eq, or_and_right, exists_or,
      exists_eq_left]
    exact Or.comm

/-- The fields of each of the first `n` items lie in its region, apart from one another, and the
regions are disjoint. -/
structure Regions (w : ℕ) (R : ℕ → Set ℕ) (F : ℕ → List ℕ) (n : ℕ) : Prop where
  within : ∀ i < n, ∀ o ∈ F i, Within w o (R i)
  pairwise : ∀ i < n, (F i).Pairwise (Apart w)
  disjoint : ∀ i < n, ∀ j < n, i ≠ j → Disjoint (R i) (R j)

/-- Two memories agree on a set of cells. -/
def Agree (S : Set ℕ) (m m' : ℕ → α) : Prop := ∀ k ∈ S, m k = m' k

section Loops

variable {R : ℕ → Set ℕ} {F G : ℕ → List ℕ} {f : (ℕ → α) → ℕ → ℕ → α}

theorem Regions.mono (h : Regions w R F (n + 1)) : Regions w R F n :=
  ⟨fun i hi => h.within i (by omega), fun i hi => h.pairwise i (by omega),
    fun i hi j hj => h.disjoint i (by omega) j (by omega)⟩

/-- Fields in different regions are apart. -/
theorem Regions.apart (h : Regions w R F n) (hG : Regions w R G n) (hw : 0 < w) {i j : ℕ}
    (hi : i < n) (hj : j < n) (hij : i ≠ j) (ha : a ∈ F i) (hb : b ∈ G j) : Apart w a b :=
  (h.within i hi a ha).apart hw (hG.within j hj b hb) (h.disjoint i hi j hj hij)

theorem Regions.gather_pairwise (h : Regions w R F n) (hw : 0 < w) :
    (gather F n).Pairwise (Apart w) := by
  induction n with
  | zero => exact List.Pairwise.nil
  | succ n ih =>
    refine List.pairwise_append.2 ⟨h.pairwise n (by omega), ih h.mono, ?_⟩
    intro a ha b hb
    obtain ⟨i, hi, hb⟩ := mem_gather.1 hb
    exact h.apart h hw (by omega) (by omega) (by omega) ha hb

/-- What happens to the other items leaves the region of an item alone. -/
theorem Regions.agree (h : Regions w R F n) {i j : ℕ} (hi : i < n)
    (hij : j ≤ i) : Agree (R i) (reverseAll w (gather F j) m) m := by
  intro k hk
  apply reverseAll_outside
  intro o ho
  obtain ⟨l, hl, ho⟩ := mem_gather.1 ho
  by_contra hko
  have hmem := h.within l (by omega) o ho k (by omega) (by omega)
  exact Set.disjoint_left.1 (h.disjoint i hi l (by omega) (by omega)) hk hmem

theorem Regions.agree_one (h : Regions w R F n) {i j : ℕ} (hi : i < n) (hj : j < n)
    (hij : i ≠ j) : Agree (R i) (reverseAll w (F j) m) m := by
  intro k hk
  apply reverseAll_outside
  intro o ho
  by_contra hko
  have hmem := h.within j hj o ho k (by omega) (by omega)
  exact Set.disjoint_left.1 (h.disjoint i hi j hj hij) hk hmem

/-- A loop that reverses the fields of each item reverses them all. -/
theorem Regions.foldl_out (h : Regions w R F n)
    (hs : ∀ i < n, ∀ q, Agree (R i) q m → f q i = reverseAll w (F i) q) :
    (List.range n).foldl f m = reverseAll w (gather F n) m := by
  induction n with
  | zero => rfl
  | succ n ih =>
    rw [List.range_succ, List.foldl_append, ih h.mono fun i hi => hs i (by omega)]
    simp only [List.foldl_cons, List.foldl_nil]
    rw [hs n (by omega) _ (h.agree (by omega) (by omega)), gather, reverseAll_append]

/-- A loop over items whose fields are reversed: where a step leaves the fields of `G` reversed,
the loop does so for all items. -/
theorem Regions.foldl_back (h : Regions w R F n) (hG : Regions w R G n) (hw : 0 < w)
    (hs : ∀ i < n, ∀ q, Agree (R i) q m → f (reverseAll w (F i) q) i = reverseAll w (G i) q)
    {q : ℕ → α} (hq : ∀ i < n, Agree (R i) q m) :
    (List.range n).foldl f (reverseAll w (gather F n) q) = reverseAll w (gather G n) q := by
  induction n generalizing q with
  | zero => rfl
  | succ n ih =>
    have hF : ∀ a ∈ F n, ∀ b ∈ gather F n, Apart w a b := by
      intro a ha b hb
      obtain ⟨i, hi, hb⟩ := mem_gather.1 hb
      exact h.apart h hw (by omega) (by omega) (by omega) ha hb
    have hFG : ∀ a ∈ F n, ∀ b ∈ gather G n, Apart w a b := by
      intro a ha b hb
      obtain ⟨i, hi, hb⟩ := mem_gather.1 hb
      exact h.apart hG hw (by omega) (by omega) (by omega) ha hb
    -- the last item waits while the others are restored, and then has its turn
    rw [List.range_succ, List.foldl_append, gather, reverseAll_append, reverseAll_comm hF]
    rw [ih h.mono hG.mono (fun i hi => hs i (by omega))]
    · simp only [List.foldl_cons, List.foldl_nil]
      rw [← reverseAll_comm hFG, hs n (by omega), gather, reverseAll_append]
      intro k hk
      rw [hG.agree (i := n) (j := n) (by omega) le_rfl k hk]
      exact hq n (by omega) k hk
    · intro i hi k hk
      rw [h.agree_one (i := i) (j := n) (by omega) (by omega) (by omega) k hk]
      exact hq i (by omega) k hk

/-- Two kinds of fields of each item, reversed together or one kind after the other. -/
theorem Regions.gather_append (h : Regions w R F n) (hG : Regions w R G n) (hw : 0 < w) :
    reverseAll w (gather (fun i => G i ++ F i) n) m =
      reverseAll w (gather G n) (reverseAll w (gather F n) m) := by
  induction n with
  | zero => rfl
  | succ n ih =>
    have hc : ∀ a ∈ F n, ∀ b ∈ gather G n, Apart w a b := by
      intro a ha b hb
      obtain ⟨i, hi, hb⟩ := mem_gather.1 hb
      exact h.apart hG hw (by omega) (by omega) (by omega) ha hb
    simp only [gather, reverseAll_append]
    rw [ih h.mono hG.mono, reverseAll_comm hc]

end Loops

end Reversal
