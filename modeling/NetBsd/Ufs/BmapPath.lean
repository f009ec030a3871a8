import Mathlib
import NetBsd.Ufs.Bmap

/-!
# From block numbers to pointer slots

The block number decides on a root of the inode and on the indices below it. `bmap` reads the
pointer at that position of the forest that inode and indirect blocks form.

## Main definitions

* `shape`, `State.forest`: the positions of an inode, and what a state has there
* `digits`, `path`: the position of a block number
* `slot`: the place where its pointer is stored

## Main results

* `path_inj`: no two block numbers have one position
* `bmap_eq`: `bmap` reads the pointer at the position, and refuses what has none
* `slot_inj`: in a forest that uses no address twice, no two block numbers share a slot
-/

namespace Bmap

open Stateful BlockTree

variable {α : Type} {E : Env α} {s s' : State α} {bn bn' : ℤ}

/-- A root of the inode: an entry of `i_db` or one of `i_ib`. -/
abbrev Root : Type := Fin ndaddr ⊕ Fin niaddr

/-- The trees of an inode: `i_ib[r]` has `r + 1` levels of indirect blocks. -/
def shape (fs : Fs) : Shape Root where
  depth := Sum.elim (fun _ => 0) fun r => r.val + 1
  fan := fs.nindir

/-- The pointers of the inode and of its indirect blocks. -/
def State.forest (E : Env α) (s : State α) : Forest Root ℤ where
  root := Sum.elim s.ip.db s.ip.ib
  m a := s.dev (E.fs.toDb a)

/-- The pointer at a position. -/
def State.ptr (E : Env α) (s : State α) (p : Pos Root) : ℤ := (s.forest E).ptr p

/-- No read or write of the device fails. -/
def Env.ErrorFree (E : Env α) : Prop := (∀ b, E.rdErr b = none) ∧ ∀ b, E.wrErr b = none

/-! ## Decoding -/

/-- The indices that the fetch loops compute. -/
def digits (nindir : ℤ) : ℕ → ℤ → ℤ → List ℕ
  | 0, _, _ => []
  | n + 1, sh, bn =>
    (bn / (sh / nindir) % nindir).toNat :: digits nindir n (sh / nindir) bn

/-- The position of a block number that is not negative. -/
def path (fs : Fs) (bn : ℤ) : Option (Pos Root) :=
  match direct bn.toNat with
  | some d => some (.inl d, [])
  | none =>
    (fs.levels bn).map fun r =>
      (.inr (ibOf r.1), digits fs.nindir (niaddr - r.1 + 1) r.2.1 r.2.2)

theorem nindir_pos (fs : Fs) : 0 < fs.nindir := Nat.pow_pos (by decide)

/-- The products of the fan-out as words: only the last can overflow, and is then zero. -/
theorem toInt_nindir (fs : Fs) :
    (1 * BitVec.ofNat 32 fs.nindir).toInt = fs.nindir ∧
    (1 * BitVec.ofNat 32 fs.nindir * BitVec.ofNat 32 fs.nindir).toInt = fs.nindir * fs.nindir ∧
    ((1 * BitVec.ofNat 32 fs.nindir * BitVec.ofNat 32 fs.nindir * BitVec.ofNat 32 fs.nindir).toInt =
        fs.nindir * fs.nindir * fs.nindir ∨
      (1 * BitVec.ofNat 32 fs.nindir * BitVec.ofNat 32 fs.nindir *
        BitVec.ofNat 32 fs.nindir).toInt = 0) := by
  have hle : fs.bshift - 2 ≤ 11 := by have := fs.bshift_le; omega
  have hn : fs.nindir = 2 ^ (fs.bshift - 2) := rfl
  generalize fs.bshift - 2 = k at hle hn
  rw [hn]
  interval_cases k <;> decide

/-- What the loop of levels has subtracted when it stops with `j`. -/
def levelBase (n : ℤ) (j : ℕ) : ℤ := if j = 3 then 0 else if j = 2 then n else n + n * n

theorem levels_spec {fs : Fs} {sh b : ℤ} {j : ℕ} (hb : ndaddr ≤ bn)
    (h : fs.levels bn = some (j, sh, b)) :
    (1 ≤ j ∧ j ≤ 3) ∧ sh = (fs.nindir : ℤ) ^ (niaddr - j + 1) ∧ 0 ≤ b ∧ b < sh ∧
      bn - ndaddr = b + levelBase fs.nindir j := by
  obtain ⟨h1, h2, h3⟩ := toInt_nindir fs
  unfold Fs.levels at h
  simp only [levels, h1, h2] at h
  split_ifs at h with c1 c2 c3
  · obtain ⟨rfl, hr⟩ := Prod.mk.inj (Option.some.inj h)
    obtain ⟨rfl, rfl⟩ := Prod.mk.inj hr
    exact ⟨by decide, (pow_one _).symm, by omega, c1, by simp [levelBase]⟩
  · obtain ⟨rfl, hr⟩ := Prod.mk.inj (Option.some.inj h)
    obtain ⟨rfl, rfl⟩ := Prod.mk.inj hr
    exact ⟨by decide, (sq _).symm, by omega, c2, by simp [levelBase]⟩
  · obtain ⟨rfl, hr⟩ := Prod.mk.inj (Option.some.inj h)
    obtain ⟨rfl, rfl⟩ := Prod.mk.inj hr
    -- A product that has overflowed is zero and stops no block number.
    have hsh := h3.resolve_right (by omega)
    refine ⟨by decide, ?_, by omega, c3, ?_⟩
    · rw [hsh]
      show _ = (fs.nindir : ℤ) ^ 3
      ring
    · show bn - ndaddr = bn - ndaddr - fs.nindir - fs.nindir * fs.nindir +
        (fs.nindir + fs.nindir * fs.nindir)
      ring

theorem digits_length (n : ℤ) (m : ℕ) (sh b : ℤ) : (digits n m sh b).length = m := by
  induction m generalizing sh with
  | zero => rfl
  | succ m ih => rw [digits, List.length_cons, ih]

theorem digits_lt {n m : ℕ} {sh b : ℤ} (hn : 0 < n) : ∀ i ∈ digits n m sh b, i < n := by
  induction m generalizing sh with
  | zero => simp [digits]
  | succ m ih =>
    intro i hi
    rw [digits, List.mem_cons] at hi
    rcases hi with rfl | hi
    · have h0 : (0 : ℤ) < n := by exact_mod_cast hn
      have h1 := Int.emod_nonneg (b / (sh / n)) h0.ne'
      have h2 := Int.emod_lt_of_pos (b / (sh / n)) h0
      omega
    · exact ih i hi

/-- Equal indices come from equal block numbers, as far as the levels reach. -/
theorem digits_inj {n : ℕ} (hn : 0 < n) {m : ℕ} {b b' : ℤ}
    (h : digits n m ((n : ℤ) ^ m) b = digits n m ((n : ℤ) ^ m) b') :
    b % (n : ℤ) ^ m = b' % (n : ℤ) ^ m := by
  have h0 : (0 : ℤ) < n := by exact_mod_cast hn
  induction m with
  | zero => simp
  | succ m ih =>
    have hsh : (n : ℤ) ^ (m + 1) / n = (n : ℤ) ^ m := by
      rw [pow_succ, Int.mul_ediv_cancel _ h0.ne']
    simp only [digits, hsh, List.cons.injEq] at h
    obtain ⟨hd, ht⟩ := h
    have ih := ih ht
    have hp : (0 : ℤ) < (n : ℤ) ^ m := pow_pos h0 m
    have h1 := Int.emod_nonneg (b / (n : ℤ) ^ m) h0.ne'
    have h2 := Int.emod_nonneg (b' / (n : ℤ) ^ m) h0.ne'
    have hd : b / (n : ℤ) ^ m % n = b' / (n : ℤ) ^ m % n := by omega
    have key : ∀ x : ℤ, x % (n : ℤ) ^ (m + 1) =
        x % (n : ℤ) ^ m + (n : ℤ) ^ m * (x / (n : ℤ) ^ m % n) := fun x => by
      have hdiv : x / ((n : ℤ) ^ m * n) = x / (n : ℤ) ^ m / n :=
        (Int.ediv_ediv_of_nonneg hp.le).symm
      rw [pow_succ, Int.emod_def, Int.emod_def x, Int.emod_def (x / (n : ℤ) ^ m), hdiv]
      ring
    rw [key, key, ih, hd]

theorem path_valid {fs : Fs} {p : Pos Root} (h0 : 0 ≤ bn) (h : path fs bn = some p) :
    (shape fs).Valid p ∧ p.2.length = (shape fs).depth p.1 := by
  unfold path direct at h
  split_ifs at h with hd
  · simp only [Option.some.injEq] at h
    subst h
    exact ⟨⟨le_refl 0, by simp⟩, rfl⟩
  · simp only [Option.map_eq_some_iff, Prod.exists] at h
    obtain ⟨j, sh, b, hl, rfl⟩ := h
    obtain ⟨⟨hj1, hj3⟩, -⟩ := levels_spec (by omega) hl
    have hdep : (shape fs).depth (.inr (ibOf j)) = niaddr - j + 1 := by
      show (ibOf j).val + 1 = niaddr - j + 1
      rw [ibOf, Fin.ofNat]
      show (3 - j) % 3 + 1 = 3 - j + 1
      omega
    refine ⟨⟨?_, digits_lt (nindir_pos fs)⟩, ?_⟩
    · rw [digits_length, hdep]
    · rw [digits_length, hdep]

/-- No two block numbers have one position. -/
theorem path_inj {fs : Fs} {p : Pos Root} (h0 : 0 ≤ bn) (h0' : 0 ≤ bn')
    (h : path fs bn = some p) (h' : path fs bn' = some p) : bn = bn' := by
  unfold path direct at h h'
  split_ifs at h h' with hd hd' hd'
  · simp only [Option.some.injEq] at h h'
    rw [← h'] at h
    have := Fin.mk.inj_iff.mp (Sum.inl.inj (Prod.mk.inj h).1)
    omega
  · simp only [Option.some.injEq, Option.map_eq_some_iff] at h h'
    obtain ⟨r, -, rfl⟩ := h'
    exact absurd (Prod.mk.inj h).1 (by simp)
  · simp only [Option.some.injEq, Option.map_eq_some_iff] at h h'
    obtain ⟨r, -, rfl⟩ := h
    exact absurd (Prod.mk.inj h').1 (by simp)
  · simp only [Option.map_eq_some_iff, Prod.exists] at h h'
    obtain ⟨j, sh, b, hl, rfl⟩ := h
    obtain ⟨j', sh', b', hl', he⟩ := h'
    obtain ⟨⟨hj1, hj3⟩, hsh, hb0, hb1, hb⟩ := levels_spec (by omega) hl
    obtain ⟨⟨hj1', hj3'⟩, hsh', hb0', hb1', hb'⟩ := levels_spec (by omega) hl'
    obtain ⟨hr, hdig⟩ := Prod.mk.inj he
    have hjj : j' = j := by
      have h3 : (3 - j') % 3 = (3 - j) % 3 := congrArg Fin.val (Sum.inr.inj hr)
      omega
    subst hjj
    subst hsh hsh'
    have hmod := digits_inj (nindir_pos fs) hdig
    rw [Int.emod_eq_of_lt hb0 hb1, Int.emod_eq_of_lt hb0' hb1'] at hmod
    rw [hmod] at hb'
    omega

/-! ## What `bmap` reads -/

/-- A pointer as `bmap` returns it. -/
def place (fs : Fs) (nb : ℤ) : ℤ := if nb = 0 then -1 else fs.toDb nb

theorem bread_eq (hE : E.ErrorFree) (b : ℤ) (s : State α) : bread E b s = .ok (s.dev b) s := by
  unfold bread
  rw [hE.1 b]
  rfl

/-- The fetch loop goes down the tree. -/
theorem bmapFetch_eq (hE : E.ErrorFree) (s : State α) {n : ℕ} {nb sh bn : ℤ} (hnb : nb ≠ 0) :
    bmapFetch E n nb sh bn s =
      .ok (place E.fs (walk (s.forest E).m nb (digits E.fs.nindir n sh bn))) s := by
  induction n generalizing nb sh with
  | zero =>
    rw [digits, walk_nil, place, if_neg hnb]
    rfl
  | succ n ih =>
    rw [bmapFetch, bind_ok (bread_eq hE _ _), digits, walk_cons _ hnb]
    set i := (bn / (sh / E.fs.nindir) % E.fs.nindir).toNat
    show (if s.dev (E.fs.toDb nb) i = 0 then pure (-1)
      else bmapFetch E n (s.dev (E.fs.toDb nb) i) (sh / E.fs.nindir) bn : Bm α ℤ) s = _
    by_cases hz : s.dev (E.fs.toDb nb) i = 0
    · have hm : (s.forest E).m nb i = 0 := hz
      rw [if_pos hz, hm, walk_zero]
      rfl
    · rw [if_neg hz, ih hz]
      rfl

/-- `bmap` reads the pointer at the position, and refuses what has none. -/
theorem bmap_eq (hE : E.ErrorFree) (s : State α) (bn : ℤ) :
    bmap E bn s =
      if bn < 0 then .error (.errno efbig) s
      else match path E.fs bn with
        | none => .error (.errno efbig) s
        | some p => .ok (place E.fs (s.ptr E p)) s := by
  unfold bmap path
  by_cases hneg : bn < 0
  · rw [if_pos hneg, bind_error (stopIf_pos hneg)]
  rw [if_neg hneg, bind_ok (stopIf_neg hneg)]
  cases direct bn.toNat with
  | some d =>
    show (if s.ip.db d = 0 then pure (-1) else pure (E.fs.toDb (s.ip.db d)) : Bm α ℤ) s =
      .ok (if s.ip.db d = 0 then -1 else E.fs.toDb (s.ip.db d)) s
    split <;> rfl
  | none =>
    cases hl : E.fs.levels bn with
    | none => rfl
    | some r =>
      obtain ⟨j, sh, b⟩ := r
      show (if s.ip.ib (ibOf j) = 0 then pure (-1)
        else bmapFetch E (niaddr - j + 1) (s.ip.ib (ibOf j)) sh b : Bm α ℤ) s = _
      by_cases hz : s.ip.ib (ibOf j) = 0
      · rw [if_pos hz]
        show _ = EStateM.Result.ok (place E.fs (walk (s.forest E).m (s.ip.ib (ibOf j)) _)) s
        rw [hz, walk_zero]
        rfl
      · rw [if_neg hz, bmapFetch_eq hE s hz]
        rfl

/-! ## Slots -/

/-- Where a pointer to a data block is stored: an entry of `i_db`, or an entry of the indirect
block at an address. -/
inductive Slot where
  | direct (d : Fin ndaddr)
  | entry (b : ℤ) (i : ℕ)
  deriving DecidableEq

/-- The slot of a position, if the indirect blocks above it are there. -/
def slotAt (E : Env α) (s : State α) : Pos Root → Option Slot
  | (.inl d, _) => some (.direct d)
  | (.inr r, l) =>
    if h : l = [] then none
    else if s.ptr E (.inr r, l.dropLast) = 0 then none
    else some (.entry (s.ptr E (.inr r, l.dropLast)) (l.getLast h))

/-- The slot of a block number. -/
def slot (E : Env α) (s : State α) (bn : ℤ) : Option Slot :=
  if bn < 0 then none else (path E.fs bn).bind (slotAt E s)

/-- What a slot holds. -/
def State.read (E : Env α) (s : State α) : Slot → ℤ
  | .direct d => s.ip.db d
  | .entry b i => s.dev (E.fs.toDb b) i

theorem path_of_slot {σ : Slot} (h : slot E s bn = some σ) :
    0 ≤ bn ∧ ∃ p, path E.fs bn = some p ∧ slotAt E s p = some σ := by
  unfold slot at h
  split_ifs at h with hneg
  exact ⟨by omega, Option.bind_eq_some_iff.mp h⟩

/-- The position of an indirect slot is that of its block and its index. -/
theorem slotAt_entry {r : Fin niaddr} {l : List ℕ} {σ : Slot}
    (h : slotAt E s (.inr r, l) = some σ) : ∃ l' i, l = l' ++ [i] ∧
      s.ptr E (.inr r, l') ≠ 0 ∧ σ = .entry (s.ptr E (.inr r, l')) i := by
  unfold slotAt at h
  dsimp only at h
  split_ifs at h with hl hz
  have hσ := (Option.some.inj h).symm
  exact ⟨l.dropLast, l.getLast hl, (List.dropLast_concat_getLast hl).symm, hz, hσ⟩

/-- `bmap` returns what the slot holds. -/
theorem bmap_of_slot (hE : E.ErrorFree) {σ : Slot} (h : slot E s bn = some σ) :
    bmap E bn s = .ok (place E.fs (s.read E σ)) s := by
  obtain ⟨h0, p, hp, hσ⟩ := path_of_slot h
  rw [bmap_eq hE, if_neg (by omega), hp]
  obtain ⟨d | r, l⟩ := p
  · have hl : l = [] := List.eq_nil_of_length_eq_zero (path_valid h0 hp).2
    subst hl
    cases hσ
    rfl
  · obtain ⟨l', i, rfl, hz, rfl⟩ := slotAt_entry hσ
    have hc : s.ptr E (.inr r, l' ++ [i]) = (s.forest E).m (s.ptr E (.inr r, l')) i :=
      (s.forest E).ptr_concat hz i
    show EStateM.Result.ok (place E.fs (s.ptr E (.inr r, l' ++ [i]))) s = _
    rw [hc]
    rfl

/-- In a forest that uses no address twice, no two block numbers share a slot. -/
theorem slot_inj (hd : (s.forest E).Distinct (shape E.fs)) {σ : Slot}
    (h : slot E s bn = some σ) (h' : slot E s bn' = some σ) : bn = bn' := by
  obtain ⟨h0, p, hp, hσ⟩ := path_of_slot h
  obtain ⟨h0', p', hp', hσ'⟩ := path_of_slot h'
  have hpos : p = p' := by
    obtain ⟨d | r, l⟩ := p <;> obtain ⟨d' | r', l'⟩ := p'
    · have hl : l = [] := List.eq_nil_of_length_eq_zero (path_valid h0 hp).2
      have hl' : l' = [] := List.eq_nil_of_length_eq_zero (path_valid h0' hp').2
      cases hσ
      cases hσ'
      rw [hl, hl']
    · obtain ⟨_, _, _, _, rfl⟩ := slotAt_entry hσ'
      cases hσ
    · obtain ⟨_, _, _, _, rfl⟩ := slotAt_entry hσ
      cases hσ'
    · obtain ⟨k, i, rfl, hz, rfl⟩ := slotAt_entry hσ
      obtain ⟨k', i', rfl, hz', he⟩ := slotAt_entry hσ'
      obtain ⟨hb, rfl⟩ := Slot.entry.inj he
      have hv := (path_valid h0 hp).1.of_append
      have hv' := (path_valid h0' hp').1.of_append
      obtain ⟨rr, rfl⟩ := Prod.mk.inj (hd _ _ hv hv' hb hz)
      rw [rr]
  rw [← hpos] at hp'
  exact path_inj h0 h0' hp hp'

end Bmap
