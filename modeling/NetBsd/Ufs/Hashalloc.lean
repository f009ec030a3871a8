import Mathlib

/-!
# hashalloc

`hashalloc` of `ufs/ufs_alloc.c` tries the cylinder groups of a filesystem: the preferred one, those
of a quadratic rehash, and the others one by one. The numbers are of type `int`, and the rehash
doubles its step until it exceeds the number of groups.

## Main definitions

* `Allocator`: an allocator, which may behave differently from call to call
* `rehash`, `bruteForce`, `hashalloc`: the function, with the groups that were tried
* `Complete`: nothing is found only after every group has failed

## Main results

* `hashalloc_complete`: the search is complete for up to `2 ^ 30` groups
* `hashalloc_stuck`: with more, the step overflows and the rehash need not end
-/

namespace Hashalloc

/-- What the allocator returns for a group and a preference, after calls for other groups. -/
abbrev Allocator := List ℤ → ℤ → ℤ → BitVec 32

/-- The value of type `int`. -/
def int (n : ℤ) : ℤ := n.bmod (2 ^ 32)

/-- Step 3, for `n` more groups from `cg` on. -/
def bruteForce (alloc : Allocator) (ncg : ℤ) : ℕ → ℤ → List ℤ → BitVec 32 × List ℤ
  | 0, _, calls => (0, calls)
  | n + 1, cg, calls =>
    let result := alloc calls cg 0
    if result ≠ 0 then (result, calls ++ [cg])
    else
      let cg' := int (cg + 1)
      bruteForce alloc ncg n (if cg' = ncg then 0 else cg') (calls ++ [cg])

/-- Step 2, and then step 3. -/
def rehash (alloc : Allocator) (ncg icg : ℤ) : ℕ → ℤ → ℤ → List ℤ →
    Option (BitVec 32 × List ℤ)
  | 0, _, _, _ => none
  | fuel + 1, i, cg, calls =>
    if i < ncg then
      let cg := int (cg + i)
      let cg := if ncg ≤ cg then int (cg - ncg) else cg
      let result := alloc calls cg 0
      if result ≠ 0 then some (result, calls ++ [cg])
      else rehash alloc ncg icg fuel (int (i * 2)) cg (calls ++ [cg])
    else some (bruteForce alloc ncg (ncg - 2).toNat ((int (icg + 2)).tmod ncg) calls)

/-- `hashalloc`: the result, and the groups that were tried. -/
def hashalloc (alloc : Allocator) (ncg cg pref : ℤ) (fuel : ℕ) : Option (BitVec 32 × List ℤ) :=
  let result := alloc [] cg pref
  if result ≠ 0 then some (result, [cg])
  else rehash alloc ncg cg fuel 1 cg [cg]

/-! ## Completeness -/

/-- All the calls failed. -/
def Failed (alloc : Allocator) (pref : ℤ) (calls : List ℤ) : Prop :=
  ∀ pre cg post, calls = pre ++ cg :: post → alloc pre cg (if pre = [] then pref else 0) = 0

/-- The groups that were tried are groups of the filesystem. The result is 0 after all of them have
failed, and else that of the first call that did not fail. -/
structure Complete (alloc : Allocator) (ncg pref : ℤ) (r : BitVec 32 × List ℤ) : Prop where
  inside : ∀ cg ∈ r.2, 0 ≤ cg ∧ cg < ncg
  full : r.1 = 0 → Failed alloc pref r.2 ∧ ∀ cg, 0 ≤ cg → cg < ncg → cg ∈ r.2
  found : r.1 ≠ 0 → ∃ pre cg, r.2 = pre ++ [cg] ∧ Failed alloc pref pre ∧
    alloc pre cg (if pre = [] then pref else 0) = r.1

variable {alloc : Allocator} {ncg icg pref i cg : ℤ} {calls : List ℤ} {n fuel : ℕ}

theorem Failed.concat (h : Failed alloc pref calls)
    (hcg : alloc calls cg (if calls = [] then pref else 0) = 0) :
    Failed alloc pref (calls ++ [cg]) := by
  intro pre c post heq
  obtain rfl | ⟨post', z, rfl⟩ := List.eq_nil_or_concat' post
  · obtain ⟨rfl, hc⟩ := List.append_inj' heq rfl
    rw [← List.head_eq_of_cons_eq hc]
    exact hcg
  · have hsplit : calls ++ [cg] = (pre ++ c :: post') ++ [z] := by
      rw [heq, List.append_assoc]
      rfl
    exact h pre c post' (List.append_inj' hsplit rfl).1

theorem int_eq {n : ℤ} (h : -2 ^ 31 ≤ n) (h' : n < 2 ^ 31) : int n = n := by
  rw [int, Int.bmod_eq_of_le] <;> omega

/-- The search up to now: groups were tried, all of them are groups of the filesystem, and all of
them failed. -/
structure Tried (alloc : Allocator) (ncg pref : ℤ) (calls : List ℤ) : Prop where
  inside : ∀ cg ∈ calls, 0 ≤ cg ∧ cg < ncg
  failed : Failed alloc pref calls
  first : calls ≠ []

/-- A call that fails goes on with the search. -/
theorem Tried.concat (h : Tried alloc ncg pref calls) (hcg : 0 ≤ cg ∧ cg < ncg)
    (hr : alloc calls cg 0 = 0) : Tried alloc ncg pref (calls ++ [cg]) where
  inside := by
    intro c hc
    obtain hc | hc := List.mem_append.mp hc
    · exact h.inside c hc
    · rw [List.mem_singleton.mp hc]
      exact hcg
  failed := by
    apply h.failed.concat
    rw [if_neg h.first]
    exact hr
  first := List.append_ne_nil_of_right_ne_nil _ (List.cons_ne_nil cg [])

/-- A call that does not fail ends it. -/
theorem Tried.found (h : Tried alloc ncg pref calls) (hcg : 0 ≤ cg ∧ cg < ncg)
    (hr : alloc calls cg 0 ≠ 0) :
    Complete alloc ncg pref (alloc calls cg 0, calls ++ [cg]) where
  inside := by
    intro c hc
    obtain hc | hc := List.mem_append.mp hc
    · exact h.inside c hc
    · rw [List.mem_singleton.mp hc]
      exact hcg
  full := fun h0 => absurd h0 hr
  found := fun _ => ⟨calls, cg, rfl, h.failed, by rw [if_neg h.first]⟩

/-- The group after `cg`, in a circle. -/
theorem emod_succ (hcg : 0 ≤ cg ∧ cg < ncg) :
    (if cg + 1 = ncg then 0 else cg + 1) = (cg + 1) % ncg := by
  split_ifs with hwrap
  · rw [hwrap, Int.emod_self]
  · exact (Int.emod_eq_of_lt (by omega) (by omega)).symm

/-- Step 3 tries `n` groups in a row, around the circle. -/
theorem bruteForce_complete (hncg : ncg ≤ 2 ^ 30) (h : Tried alloc ncg pref calls)
    (hcg : 0 ≤ cg ∧ cg < ncg)
    (hall : ∀ g, 0 ≤ g → g < ncg → g ∈ calls ∨ ∃ j < n, g = (cg + j) % ncg) :
    Complete alloc ncg pref (bruteForce alloc ncg n cg calls) := by
  induction n generalizing cg calls with
  | zero =>
    refine ⟨h.inside, fun _ => ⟨h.failed, ?_⟩, fun h0 => absurd rfl h0⟩
    intro g hg hg'
    obtain hmem | ⟨j, hj, -⟩ := hall g hg hg'
    · exact hmem
    · exact absurd hj j.not_lt_zero
  | succ n ih =>
    rw [bruteForce]
    dsimp only
    rw [int_eq (by omega) (by omega), emod_succ hcg]
    split_ifs with hr
    · exact h.found hcg hr
    · rw [not_not] at hr
      apply ih (h.concat hcg hr)
        ⟨Int.emod_nonneg _ (by omega), Int.emod_lt_of_pos _ (by omega)⟩
      intro g hg hg'
      obtain hmem | ⟨j, hj, rfl⟩ := hall g hg hg'
      · exact Or.inl (List.mem_append_left _ hmem)
      · -- The first of the groups was tried just now.
        cases j with
        | zero =>
          left
          rw [Nat.cast_zero, add_zero, Int.emod_eq_of_lt hcg.1 hcg.2]
          exact List.mem_append_right _ (List.mem_singleton_self cg)
        | succ j =>
          right
          refine ⟨j, by omega, ?_⟩
          rw [Int.emod_add_emod]
          congr 1
          push_cast
          ring

/-- The groups that step 3 leaves out were tried before it. -/
theorem mem_or_sweep (hicg : 0 ≤ icg ∧ icg < ncg) (h0 : icg ∈ calls)
    (h1 : 1 < ncg → (icg + 1) % ncg ∈ calls) {g : ℤ} (hg : 0 ≤ g) (hg' : g < ncg) :
    g ∈ calls ∨ ∃ j < (ncg - 2).toNat, g = ((icg + 2) % ncg + j) % ncg := by
  have hround : g = (icg + (g - icg) % ncg) % ncg := by
    rw [Int.add_emod_emod, show icg + (g - icg) = g by ring, Int.emod_eq_of_lt hg hg']
  have hpos := Int.emod_nonneg (g - icg) (show ncg ≠ 0 by omega)
  have hlt := Int.emod_lt_of_pos (g - icg) (show 0 < ncg by omega)
  -- The distance from the preferred group: 0, 1 or more.
  obtain hd | hd | hd : (g - icg) % ncg = 0 ∨ (g - icg) % ncg = 1 ∨ 2 ≤ (g - icg) % ncg := by
    omega
  · left
    rw [hround, hd, add_zero, Int.emod_eq_of_lt hicg.1 hicg.2]
    exact h0
  · left
    rw [hround, hd]
    exact h1 (by omega)
  · right
    refine ⟨((g - icg) % ncg - 2).toNat, by omega, ?_⟩
    rw [Int.emod_add_emod, Int.toNat_of_nonneg (by omega)]
    nth_rw 1 [hround]
    congr 1
    ring

/-- Once the step has reached the number of groups, step 3 completes the search. -/
theorem rehash_sweep (hncg : ncg ≤ 2 ^ 30) (hicg : 0 ≤ icg ∧ icg < ncg)
    (h : Tried alloc ncg pref calls) (h0 : icg ∈ calls)
    (h1 : 1 < ncg → (icg + 1) % ncg ∈ calls) (hi : ncg ≤ i) :
    ∃ r, rehash alloc ncg icg (fuel + 1) i cg calls = some r ∧ Complete alloc ncg pref r := by
  rw [rehash, if_neg (by omega)]
  refine ⟨_, rfl, ?_⟩
  rw [int_eq (by omega) (by omega), Int.tmod_eq_emod_of_nonneg (by omega)]
  apply bruteForce_complete hncg h
    ⟨Int.emod_nonneg _ (by omega), Int.emod_lt_of_pos _ (by omega)⟩
  intro g hg hg'
  exact mem_or_sweep hicg h0 h1 hg hg'

/-- The group `i` further on, in a circle. -/
theorem int_step (hncg : ncg ≤ 2 ^ 30) (hcg : 0 ≤ cg ∧ cg < ncg) (hi : 0 < i) (hlt : i < ncg) :
    (if ncg ≤ int (cg + i) then int (int (cg + i) - ncg) else int (cg + i)) = (cg + i) % ncg := by
  rw [int_eq (by omega) (by omega)]
  split_ifs with hwrap
  · rw [int_eq (by omega) (by omega), ← Int.sub_emod_right, Int.emod_eq_of_lt] <;> omega
  · rw [Int.emod_eq_of_lt] <;> omega

/-- Step 2 doubles the step until it reaches the number of groups. -/
theorem rehash_complete (hncg : ncg ≤ 2 ^ 30) (hicg : 0 ≤ icg ∧ icg < ncg)
    (h : Tried alloc ncg pref calls) (hcg : 0 ≤ cg ∧ cg < ncg) (hi : 0 < i)
    (h0 : icg ∈ calls) (h1 : i = 1 ∧ cg = icg ∨ (icg + 1) % ncg ∈ calls)
    (hfuel : ncg ≤ i * 2 ^ fuel) :
    ∃ r, rehash alloc ncg icg (fuel + 1) i cg calls = some r ∧ Complete alloc ncg pref r := by
  have hexit : ncg ≤ i → 1 < ncg → (icg + 1) % ncg ∈ calls := by
    intro hle hone
    obtain ⟨rfl, -⟩ | h1 := h1
    · omega
    · exact h1
  -- The induction is on the doublings that are left; `hfuel` says that they are enough.
  induction fuel generalizing i cg calls with
  | zero =>
    rw [pow_zero, mul_one] at hfuel
    exact rehash_sweep hncg hicg h h0 (hexit hfuel) hfuel
  | succ fuel ih =>
    obtain hlt | hle := lt_or_ge i ncg
    · rw [rehash, if_pos hlt]
      dsimp only
      rw [int_step hncg hcg hi hlt]
      have hcg' : 0 ≤ (cg + i) % ncg ∧ (cg + i) % ncg < ncg :=
        ⟨Int.emod_nonneg _ (by omega), Int.emod_lt_of_pos _ (by omega)⟩
      split_ifs with hr
      · exact ⟨_, rfl, h.found hcg' hr⟩
      · rw [not_not] at hr
        rw [int_eq (by omega) (by omega)]
        -- The first of these calls is for the group after the preferred one.
        have hmem : (icg + 1) % ncg ∈ calls ++ [(cg + i) % ncg] := by
          obtain ⟨rfl, rfl⟩ | h1 := h1
          · exact List.mem_append_right _ (List.mem_singleton_self _)
          · exact List.mem_append_left _ h1
        apply ih (h.concat hcg' hr) hcg' (by omega) (List.mem_append_left _ h0) (Or.inr hmem)
        · rw [mul_assoc, ← pow_succ']
          exact hfuel
        · intro _ _
          exact hmem
    · exact rehash_sweep hncg hicg h h0 (hexit hle) hle

theorem hashalloc_complete (alloc : Allocator) (ncg icg pref : ℤ) (fuel : ℕ)
    (hncg : ncg ≤ 2 ^ 30) (hicg : 0 ≤ icg) (hicg' : icg < ncg) (hfuel : 31 ≤ fuel) :
    ∃ r, hashalloc alloc ncg icg pref fuel = some r ∧ Complete alloc ncg pref r := by
  have hnone : Failed alloc pref [] := by
    intro pre cg post heq
    exact absurd heq.symm (List.append_ne_nil_of_right_ne_nil _ (List.cons_ne_nil cg post))
  have hone : ∀ c ∈ [icg], 0 ≤ c ∧ c < ncg := by
    intro c hc
    rw [List.mem_singleton.mp hc]
    exact ⟨hicg, hicg'⟩
  rw [hashalloc]
  split_ifs with hr
  · exact ⟨_, rfl, hone, fun h0 => absurd h0 hr, fun _ => ⟨[], icg, rfl, hnone, rfl⟩⟩
  · rw [not_not] at hr
    obtain ⟨fuel, rfl⟩ : ∃ n, fuel = n + 1 := ⟨fuel - 1, by omega⟩
    apply rehash_complete hncg ⟨hicg, hicg'⟩ ⟨hone, hnone.concat hr, List.cons_ne_nil icg []⟩
      ⟨hicg, hicg'⟩ one_pos (List.mem_singleton_self icg) (Or.inl ⟨rfl, rfl⟩)
    calc ncg ≤ 2 ^ 30 := hncg
      _ ≤ 1 * 2 ^ fuel := by
        rw [one_mul]
        exact pow_le_pow_right₀ one_le_two (by omega)

theorem hashalloc_complete_three :
    ∃ r, hashalloc (fun _ cg _ => if cg = 1 then 7 else 0) 3 2 0 31 = some r ∧
      Complete (fun _ cg _ => if cg = 1 then 7 else 0) 3 0 r :=
  hashalloc_complete _ 3 2 0 31 (by decide) (by decide) (by decide) (by decide)

/-! ## Too many groups -/

/-- Only group 2 has something left. -/
def onlyTwo : Allocator := fun _ cg _ => if cg = 2 then 1 else 0

/-- One failing call of step 2. -/
theorem rehash_failed (cg' : ℤ) (hlt : i < ncg)
    (hcg : (if ncg ≤ int (cg + i) then int (int (cg + i) - ncg) else int (cg + i)) = cg')
    (hne : cg' ≠ 2) :
    rehash onlyTwo ncg icg (fuel + 1) i cg calls =
      rehash onlyTwo ncg icg fuel (int (i * 2)) cg' (calls ++ [cg']) := by
  have hr : onlyTwo calls cg' 0 = 0 := if_neg hne
  rw [rehash, if_pos hlt]
  dsimp only
  rw [hcg, if_neg (not_not.mpr hr)]

/-- A step of 0 stays at one group for ever. -/
theorem rehash_zero (hneg : cg < 0) (hcg : -2 ^ 31 ≤ cg) (hncg : 0 < ncg) :
    rehash onlyTwo ncg icg fuel 0 cg calls = none := by
  induction fuel generalizing calls with
  | zero => rfl
  | succ fuel ih =>
    rw [rehash_failed cg hncg _ (by omega)]
    · exact ih
    · rw [add_zero, int_eq hcg (by omega), if_neg (by omega)]

theorem rehash_doubling {k : ℕ} (hk : k ≤ 30) :
    rehash onlyTwo (2 ^ 30 + 1) 0 fuel (2 ^ k) (2 ^ k - 1) calls = none := by
  induction fuel generalizing k calls with
  | zero => rfl
  | succ fuel ih =>
    have hpos : (0 : ℤ) < 2 ^ k := pow_pos two_pos k
    obtain hlt | rfl := lt_or_eq_of_le hk
    · have hle : (2 : ℤ) ^ k ≤ 2 ^ 29 := pow_le_pow_right₀ one_le_two (by omega)
      rw [rehash_failed (2 ^ (k + 1) - 1) (by omega) _ (by omega)]
      · rw [int_eq (by omega) (by omega), ← pow_succ]
        exact ih (by omega)
      · rw [int_eq (by omega) (by omega), if_neg (by omega)]
        ring
    · -- From here the step is the least number, and then 0.
      rw [rehash_failed (2 ^ 30 - 2) (by norm_num) (by decide) (by norm_num)]
      cases fuel with
      | zero => rfl
      | succ fuel =>
        rw [show int (2 ^ 30 * 2) = -2 ^ 31 by decide,
          rehash_failed (-2 ^ 30 - 2) (by norm_num) (by decide) (by norm_num)]
        exact rehash_zero (by norm_num) (by norm_num) (by norm_num)

/-- With one group more, the step overflows to 0, and group 2 is never tried. -/
theorem hashalloc_stuck :
    ¬∃ fuel r, hashalloc onlyTwo (2 ^ 30 + 1) 0 0 fuel = some r := by
  rintro ⟨fuel, r, h⟩
  have hnone : hashalloc onlyTwo (2 ^ 30 + 1) 0 0 fuel = none := rehash_doubling (Nat.zero_le 30)
  rw [hnone] at h
  cases h

end Hashalloc
