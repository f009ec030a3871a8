import Mathlib
import NetBsd.Lib.Fault
import NetBsd.Lib.Intervals

/-!
# Resource lists

`rlist_free` and `rlist_alloc` of `kern/subr_rlist.c`: a list of `struct rlist` elements, each
a closed range of unsigned numbers. The list stands for the chain reached from `*rlp`;
`malloc` with `M_NOWAIT` may return no element, which the caller of the model decides.

## Main definitions

* `rlistFree`, `rlistAlloc`: the two operations as the code computes them
* `Rlist.set l`: the numbers on the list
* `Rlist.Reach l`: the lists that calls with disjoint regions lead to

## Main results

* `Rlist.rlistFree_eq`: what `rlist_free` makes of a canonical list
* `Rlist.rlistAlloc_some`, `Rlist.rlistAlloc_none`: first fit is complete
* `Rlist.reach_exact`: what every call does in a list that was reached
-/

/-- `struct rlist` without its link. -/
structure Rlist where
  rlStart : BitVec 32
  rlEnd : BitVec 32
  deriving DecidableEq, Repr

namespace Rlist

open Intervals

/-- The walk of `rlist_free` to the place of the region `start..stop`: the new list, and whether
the code goes on to `scan`.  `m` says whether `malloc` has an element to give. -/
def freeLoop (m : Bool) (start stop : BitVec 32) : List Rlist → Except Fault (Bool × List Rlist)
  | [] => if m then .ok (false, [⟨start, stop⟩]) else .error .deref
  | e :: rest =>
    if e.rlStart ≤ start ∧ start ≤ e.rlEnd then .error .panic
    else if e.rlStart ≤ stop ∧ stop ≤ e.rlEnd then .error .panic
    else if stop + 1 = e.rlStart then .ok (true, { e with rlStart := start } :: rest)
    else if stop < e.rlStart then
      if m then .ok (false, ⟨start, stop⟩ :: e :: rest) else .error .deref
    else if e.rlEnd + 1 = start then .ok (true, { e with rlEnd := stop } :: rest)
    else if e.rlEnd < start then do
      let (scan, rest') ← freeLoop m start stop rest
      .ok (scan, e :: rest')
    else .error .panic

/-- The `scan` loop of `rlist_free` with `lp` on the first element. -/
def scanFrom (lp : Rlist) : List Rlist → List Rlist
  | [] => [lp]
  | lpn :: rest =>
    if lp.rlEnd + 1 = lpn.rlStart then scanFrom { lp with rlEnd := lpn.rlEnd } rest
    else lp :: scanFrom lpn rest

/-- The `scan` of `rlist_free` from the head of the list. -/
def scan : List Rlist → List Rlist
  | [] => []
  | lp :: rest => scanFrom lp rest

def rlistFree (m : Bool) (l : List Rlist) (start stop : BitVec 32) :
    Except Fault (List Rlist) := do
  let (b, l') ← freeLoop m start stop l
  .ok (if b then scan l' else l')

/-- `rlist_alloc`: `none` for the value 0, else the number stored at `loc` and the new list. -/
def rlistAlloc (size : BitVec 32) : List Rlist → Option (BitVec 32 × List Rlist)
  | [] => none
  | e :: rest =>
    if size ≤ e.rlEnd - e.rlStart + 1 then
      let s := e.rlStart + size
      some (e.rlStart, if e.rlEnd < s then rest else { e with rlStart := s } :: rest)
    else
      match rlistAlloc size rest with
      | none => none
      | some (loc, rest') => some (loc, e :: rest')

/-! ## Lists as sets of numbers -/

/-- The range of an element. -/
def range (e : Rlist) : ℕ × ℕ := (e.rlStart.toNat, e.rlEnd.toNat)

/-- The numbers on the list. -/
def set (l : List Rlist) : Set ℕ := points (l.map range)

/-- All values are below `2 ^ 32 - 1`. -/
def Bounded (l : List Rlist) : Prop := ∀ n ∈ set l, n < 2 ^ 32 - 1

@[simp] theorem set_nil : set [] = ∅ := points_nil

@[simp] theorem set_cons (e : Rlist) (l : List Rlist) :
    set (e :: l) = Set.Icc e.rlStart.toNat e.rlEnd.toNat ∪ set l := points_cons

/-- The elements are nonempty and in order, at least `g` numbers apart. -/
def Apart (g : ℕ) (l : List Rlist) : Prop := Spaced g (l.map range)

theorem apart_nil (g : ℕ) : Apart g [] := spaced_nil

theorem apart_cons {g : ℕ} {e : Rlist} {l : List Rlist} :
    Apart g (e :: l) ↔ e.rlStart.toNat ≤ e.rlEnd.toNat ∧
      (∀ n ∈ set l, e.rlEnd.toNat + g < n) ∧ Apart g l := spaced_cons

section Free

variable {m : Bool} {e : Rlist} {l l' : List Rlist} {start stop : BitVec 32}

/-- `rlist_free` needs no new element: the region touches the numbers on the list. -/
def Touches (start stop : BitVec 32) (S : Set ℕ) : Prop :=
  stop.toNat + 1 ∈ S ∨ ∃ n ∈ S, n + 1 = start.toNat

theorem succ_eq {a b : BitVec 32} (h : a.toNat < 2 ^ 32 - 1) :
    a + 1 = b ↔ a.toNat + 1 = b.toNat := by
  bv_omega

/-- What the walk of `rlist_free` hands on: the region has joined the list, and where no `scan`
follows no two elements can be joined. -/
def Joined (start stop : BitVec 32) (l : List Rlist) (r : Bool × List Rlist) : Prop :=
  set r.2 = set l ∪ Set.Icc start.toNat stop.toNat ∧ Apart (if r.1 then 0 else 1) r.2

theorem Joined.cons (hl : Apart 1 (e :: l)) (hs : e.rlEnd.toNat + 1 < start.toNat)
    {r : Bool × List Rlist} (hj : Joined start stop l r) :
    Joined start stop (e :: l) (r.1, e :: r.2) := by
  rcases apart_cons.mp hl with ⟨he, hfar, -⟩
  rcases hj with ⟨hset, hap⟩
  refine ⟨by simp only [set_cons, hset, Set.union_assoc], apart_cons.mpr ⟨he, ?_, hap⟩⟩
  intro n hn
  simp only [hset, Set.mem_union, Set.mem_Icc] at hn
  have hlt : e.rlEnd.toNat + 1 < n := by
    rcases hn with hn | hn
    · exact hfar n hn
    · omega
  split <;> omega

theorem joined_front (hl : Apart 1 (e :: l)) (hr : start.toNat ≤ stop.toNat)
    (hs : stop.toNat + 1 = e.rlStart.toNat) :
    Joined start stop (e :: l) (true, { e with rlStart := start } :: l) := by
  rcases apart_cons.mp hl with ⟨he, hfar, hrest⟩
  refine ⟨?_, apart_cons.mpr ⟨by dsimp only; omega, ?_, hrest.mono (by simp)⟩⟩
  · ext n
    simp only [set_cons, Set.mem_union, Set.mem_Icc]
    grind
  · intro n hn
    have := hfar n hn
    simp only [if_true]
    omega

theorem joined_before (hl : Apart 1 (e :: l)) (hr : start.toNat ≤ stop.toNat)
    (hs : stop.toNat + 1 < e.rlStart.toNat) :
    Joined start stop (e :: l) (false, ⟨start, stop⟩ :: e :: l) := by
  refine ⟨?_, apart_cons.mpr ⟨hr, ?_, hl⟩⟩
  · rw [set_cons, Set.union_comm]
  · intro n hn
    rcases apart_cons.mp hl with ⟨he, hfar, -⟩
    simp only [set_cons, Set.mem_union, Set.mem_Icc] at hn
    have hlt : stop.toNat + 1 < n := by
      rcases hn with hn | hn
      · omega
      · have := hfar n hn
        omega
    simpa using hlt

theorem joined_tail (hl : Apart 1 (e :: l)) (hr : start.toNat ≤ stop.toNat)
    (hs : e.rlEnd.toNat + 1 = start.toNat) (hfree : ∀ n ∈ set l, stop.toNat < n) :
    Joined start stop (e :: l) (true, { e with rlEnd := stop } :: l) := by
  rcases apart_cons.mp hl with ⟨he, -, hrest⟩
  refine ⟨?_, apart_cons.mpr ⟨by dsimp only; omega, ?_, hrest.mono (by simp)⟩⟩
  · ext n
    simp only [set_cons, Set.mem_union, Set.mem_Icc]
    grind
  · simpa using hfree

theorem touches_cons (hr : start.toNat ≤ stop.toNat)
    (hs : e.rlEnd.toNat + 1 < start.toNat) :
    Touches start stop (set (e :: l)) ↔ Touches start stop (set l) := by
  simp only [Touches, set_cons, Set.mem_union, Set.mem_Icc]
  grind

/-- The walk of `rlist_free`: it asks for an element exactly where the region touches nothing. -/
theorem freeLoop_meets (hl : Apart 1 l) (hb : Bounded l) (hr : start.toNat ≤ stop.toNat)
    (ht : stop.toNat < 2 ^ 32 - 1) (hd : Disjoint (Set.Icc start.toNat stop.toNat) (set l)) :
    (m = true ∨ Touches start stop (set l) →
        ∃ r, freeLoop m start stop l = .ok r ∧ Joined start stop l r) ∧
      (¬(m = true ∨ Touches start stop (set l)) → freeLoop m start stop l = .error .deref) := by
  induction l with
  | nil =>
    have ht' : ¬Touches start stop (set []) := by simp [Touches]
    cases m
    · simp only [ht']
      simp [freeLoop]
    · refine ⟨fun _ => ⟨_, rfl, ?_, ?_⟩, by simp⟩
      · simp
      · exact apart_cons.mpr ⟨hr, by simp, apart_nil _⟩
  | cons e rest ih =>
    rcases apart_cons.mp hl with ⟨he, hfar, hrest⟩
    have hmem {n : ℕ} (hn : n ∈ set rest) : n ∈ set (e :: rest) := by
      rw [set_cons]
      exact Or.inr hn
    have heb : e.rlEnd.toNat < 2 ^ 32 - 1 := hb _ (by simp [he])
    -- the region lies on one side of the first element
    have hside : stop.toNat < e.rlStart.toNat ∨ e.rlEnd.toNat < start.toNat := by
      by_contra hc
      have hp := @Set.disjoint_left _ _ _ |>.mp hd
      apply @hp (max start.toNat e.rlStart.toNat) ⟨le_max_left _ _, by omega⟩
      rw [set_cons]
      exact Or.inl ⟨le_max_right _ _, by omega⟩
    unfold freeLoop
    simp only [BitVec.le_def, BitVec.lt_def, succ_eq ht, succ_eq heb]
    rcases hside with hlt | hlt
    · rw [if_neg (by omega), if_neg (by omega)]
      by_cases hadj : stop.toNat + 1 = e.rlStart.toNat
      · have htouch : Touches start stop (set (e :: rest)) := by
          left
          simp [hadj, he]
        rw [if_pos hadj]
        exact ⟨fun _ => ⟨_, rfl, joined_front hl hr hadj⟩, fun hn => absurd (.inr htouch) hn⟩
      · have htouch : ¬Touches start stop (set (e :: rest)) := by
          simp only [Touches, set_cons, Set.mem_union, Set.mem_Icc]
          grind
        rw [if_neg hadj, if_pos hlt]
        cases m
        · simp only [htouch]
          simp
        · exact ⟨fun _ => ⟨_, rfl, joined_before hl hr (by omega)⟩, by simp⟩
    · rw [if_neg (by omega), if_neg (by omega), if_neg (by omega), if_neg (by omega)]
      by_cases hadj : e.rlEnd.toNat + 1 = start.toNat
      · have htouch : Touches start stop (set (e :: rest)) := by
          right
          exact ⟨e.rlEnd.toNat, by simp [he], hadj⟩
        rw [if_pos hadj]
        refine ⟨fun _ => ⟨_, rfl, joined_tail hl hr hadj ?_⟩, fun hn => absurd (.inr htouch) hn⟩
        intro n hn
        have hfarn := hfar n hn
        by_contra hc
        exact Set.disjoint_left.mp hd ⟨by omega, by omega⟩ (hmem hn)
      · rw [if_neg hadj, if_pos hlt, touches_cons hr (by omega)]
        have hd' : Disjoint (Set.Icc start.toNat stop.toNat) (set rest) :=
          hd.mono_right fun n hn => hmem hn
        rcases ih hrest (fun n hn => hb n (hmem hn)) hd' with ⟨hok, herr⟩
        constructor
        · intro hm
          rcases hok hm with ⟨r, hreq, hj⟩
          exact ⟨_, by rw [hreq]; rfl, hj.cons hl (by omega)⟩
        · intro hm
          rw [herr hm]
          rfl

/-- The rescan joins what can be joined. -/
theorem scanFrom_spec (hl : Apart 0 (e :: l)) (hb : Bounded (e :: l)) :
    set (scanFrom e l) = set (e :: l) ∧ Apart 1 (scanFrom e l) := by
  induction l generalizing e with
  | nil => exact ⟨rfl, apart_cons.mpr ⟨(apart_cons.mp hl).1, by simp, apart_nil _⟩⟩
  | cons f rest ih =>
    rcases apart_cons.mp hl with ⟨he, hfar, hrest⟩
    rcases apart_cons.mp hrest with ⟨hf, hffar, hrest'⟩
    have heb : e.rlEnd.toNat < 2 ^ 32 - 1 := hb _ (by simp [he])
    have hef : e.rlEnd.toNat < f.rlStart.toNat := hfar _ (by simp [hf])
    unfold scanFrom
    simp only [succ_eq heb]
    by_cases hadj : e.rlEnd.toNat + 1 = f.rlStart.toNat
    · rw [if_pos hadj]
      have hset : set ({ e with rlEnd := f.rlEnd } :: rest) = set (e :: f :: rest) := by
        ext n
        simp only [set_cons, Set.mem_union, Set.mem_Icc]
        grind
      rw [← hset]
      apply ih
      · exact apart_cons.mpr ⟨by dsimp only; omega, hffar, hrest'⟩
      · rw [Bounded, hset]
        exact hb
    · rw [if_neg hadj]
      have hbf : Bounded (f :: rest) := by
        intro n hn
        apply hb
        rw [set_cons]
        exact Or.inr hn
      rcases ih hrest hbf with ⟨hset, hap⟩
      refine ⟨by simp only [set_cons, hset], apart_cons.mpr ⟨he, ?_, hap⟩⟩
      intro n hn
      simp only [hset, set_cons, Set.mem_union, Set.mem_Icc] at hn
      rcases hn with hn | hn
      · omega
      · have := hffar n hn
        omega

theorem scan_spec (hl : Apart 0 l) (hb : Bounded l) : set (scan l) = set l ∧ Apart 1 (scan l) := by
  cases l with
  | nil => exact ⟨rfl, apart_nil _⟩
  | cons e rest => exact scanFrom_spec hl hb

/-- The list is the coarsest list of its numbers, and all of them are below `2 ^ 32 - 1`. -/
def Canonical (l : List Rlist) : Prop := Apart 1 l ∧ Bounded l

/-- `rlist_free` on a canonical list and a region of other numbers: it adds the region, unless
it needs an element and `malloc` gives none. -/
theorem rlistFree_meets (hl : Canonical l) (hr : start.toNat ≤ stop.toNat)
    (ht : stop.toNat < 2 ^ 32 - 1) (hd : Disjoint (Set.Icc start.toNat stop.toNat) (set l)) :
    (m = true ∨ Touches start stop (set l) →
        ∃ l', rlistFree m l start stop = .ok l' ∧ Canonical l' ∧
          set l' = set l ∪ Set.Icc start.toNat stop.toNat) ∧
      (¬(m = true ∨ Touches start stop (set l)) → rlistFree m l start stop = .error .deref) := by
  rcases freeLoop_meets (m := m) hl.1 hl.2 hr ht hd with ⟨hok, herr⟩
  constructor
  · intro hm
    rcases hok hm with ⟨⟨b, l'⟩, hreq, hset, hap⟩
    have hbl : Bounded l' := by
      intro n hn
      rw [hset] at hn
      rcases hn with hn | hn
      · exact hl.2 n hn
      · exact lt_of_le_of_lt hn.2 ht
    refine ⟨if b then scan l' else l', by rw [rlistFree, hreq]; rfl, ?_⟩
    cases b with
    | false => exact ⟨⟨hap, hbl⟩, hset⟩
    | true =>
      rcases scan_spec hap hbl with ⟨hscan, hap'⟩
      refine ⟨⟨hap', ?_⟩, hscan.trans hset⟩
      rw [Bounded, if_pos rfl, hscan]
      exact hbl
  · intro hm
    rw [rlistFree, herr hm]
    rfl

end Free

section Alloc

variable {e : Rlist} {l l' : List Rlist} {size loc : BitVec 32}

/-- The numbers from `a` on that a region of `size` numbers takes. -/
def run (a : ℕ) (size : BitVec 32) : Set ℕ := Set.Icc a (a + size.toNat - 1)

theorem size_le_iff (he : e.rlStart.toNat ≤ e.rlEnd.toNat) (hb : e.rlEnd.toNat < 2 ^ 32 - 1) :
    size ≤ e.rlEnd - e.rlStart + 1 ↔ e.rlStart.toNat + size.toNat ≤ e.rlEnd.toNat + 1 := by
  bv_omega

theorem canonical_cons : Canonical (e :: l) ↔
    e.rlStart.toNat ≤ e.rlEnd.toNat ∧ e.rlEnd.toNat < 2 ^ 32 - 1 ∧
      (∀ n ∈ set l, e.rlEnd.toNat + 1 < n) ∧ Canonical l := by
  simp only [Canonical, apart_cons, Bounded, set_cons, Set.mem_union, Set.mem_Icc]
  constructor
  · rintro ⟨⟨he, hfar, hl⟩, hb⟩
    exact ⟨he, hb _ (Or.inl ⟨he, le_rfl⟩), hfar, hl, fun n hn => hb n (Or.inr hn)⟩
  · rintro ⟨he, heb, hfar, hl, hb⟩
    refine ⟨⟨he, hfar, hl⟩, ?_⟩
    rintro n (hn | hn)
    · omega
    · exact hb n hn

/-- A run too large for the first element is found behind it. -/
theorem run_behind (hl : Canonical (e :: l)) (hs : 0 < size.toNat)
    (hbig : ¬e.rlStart.toNat + size.toNat ≤ e.rlEnd.toNat + 1) {a : ℕ}
    (ha : run a size ⊆ set (e :: l)) : run a size ⊆ set l := by
  rcases hl.1.exists_of_run (by omega) ha with ⟨f, hf, hfa, hfb⟩
  rcases List.mem_map.mp hf with ⟨f', hf', rfl⟩
  rcases List.mem_cons.mp hf' with rfl | hf'
  · simp only [range] at hfa hfb
    omega
  · exact fun n hn => ⟨_, List.mem_map_of_mem hf', hfa.trans hn.1, hn.2.trans hfb⟩

/-- What `rlist_alloc` has to do: take the lowest run of `size` numbers off the list, and
return nothing only when there is none. -/
def Allocated (size : BitVec 32) (l : List Rlist) : Option (BitVec 32 × List Rlist) → Prop
  | none => ∀ a, ¬run a size ⊆ set l
  | some (loc, l') => Canonical l' ∧ run loc.toNat size ⊆ set l ∧
      (∀ a, run a size ⊆ set l → loc.toNat ≤ a) ∧ set l' = set l \ run loc.toNat size

theorem allocated_first (hl : Canonical (e :: l)) (hs : 0 < size.toNat)
    (hfit : e.rlStart.toNat + size.toNat ≤ e.rlEnd.toNat + 1) :
    Allocated size (e :: l) (some (e.rlStart,
      if e.rlEnd < e.rlStart + size then l else { e with rlStart := e.rlStart + size } :: l)) := by
  rcases canonical_cons.mp hl with ⟨he, heb, hfar, hrest⟩
  have hsum : (e.rlStart + size).toNat = e.rlStart.toNat + size.toNat := by bv_omega
  refine ⟨?_, ?_, ?_, ?_⟩
  · split
    next => exact hrest
    next hleft =>
      rw [BitVec.lt_def, hsum] at hleft
      exact canonical_cons.mpr ⟨by dsimp only; omega, heb, hfar, hrest⟩
  · intro n hn
    rw [set_cons]
    exact Or.inl ⟨hn.1, hn.2.trans (by omega)⟩
  · intro a ha
    have hmem := ha (show a ∈ run a size from ⟨le_rfl, by omega⟩)
    rw [set_cons] at hmem
    rcases hmem with hmem | hmem
    · exact hmem.1
    · have := hfar a hmem
      omega
  · ext n
    have hn := hfar n
    simp only [set_cons, Set.mem_sdiff, Set.mem_union, Set.mem_Icc, run]
    split
    next heat =>
      rw [BitVec.lt_def, hsum] at heat
      grind
    next hleft =>
      simp only [set_cons, Set.mem_union, Set.mem_Icc, hsum]
      grind

theorem Allocated.cons (hl : Canonical (e :: l)) (hs : 0 < size.toNat)
    (hbig : ¬e.rlStart.toNat + size.toNat ≤ e.rlEnd.toNat + 1) {o}
    (h : Allocated size l o) :
    Allocated size (e :: l) (o.map fun r => (r.1, e :: r.2)) := by
  rcases canonical_cons.mp hl with ⟨he, heb, hfar, hrest⟩
  rcases o with _ | ⟨loc, l'⟩
  · exact fun a ha => h a (run_behind hl hs hbig ha)
  · rcases h with ⟨hcan, hin, hlow, hset⟩
    refine ⟨canonical_cons.mpr ⟨he, heb, ?_, hcan⟩, ?_, ?_, ?_⟩
    · intro n hn
      rw [hset] at hn
      exact hfar n hn.1
    · intro n hn
      rw [set_cons]
      exact Or.inr (hin hn)
    · intro a ha
      exact hlow a (run_behind hl hs hbig ha)
    · ext n
      have hn := hfar n
      have hrun : n ∈ run loc.toNat size → n ∈ set l := fun h => hin h
      simp only [set_cons, hset, Set.mem_union, Set.mem_sdiff, Set.mem_Icc]
      grind

/-- First fit is complete on a canonical list. -/
theorem rlistAlloc_meets (hl : Canonical l) (hs : 0 < size.toNat) :
    Allocated size l (rlistAlloc size l) := by
  induction l with
  | nil =>
    intro a ha
    simpa using ha (show a ∈ run a size from ⟨le_rfl, by omega⟩)
  | cons e rest ih =>
    rcases canonical_cons.mp hl with ⟨he, heb, -, hrest⟩
    unfold rlistAlloc
    simp only [size_le_iff he heb]
    by_cases hfit : e.rlStart.toNat + size.toNat ≤ e.rlEnd.toNat + 1
    · rw [if_pos hfit]
      exact allocated_first hl hs hfit
    · rw [if_neg hfit]
      have hrec := (ih hrest).cons hl hs hfit
      cases hreq : rlistAlloc size rest with
      | none =>
        rw [hreq] at hrec
        exact hrec
      | some r =>
        rw [hreq] at hrec
        exact hrec

end Alloc

/-! ## Runs -/

/-- A region of `rlist_free`: a nonempty range of numbers below `2 ^ 32 - 1`. -/
structure Region where
  start : BitVec 32
  stop : BitVec 32
  le : start.toNat ≤ stop.toNat
  lt : stop.toNat < 2 ^ 32 - 1

/-- The numbers of the region. -/
def Region.set (r : Region) : Set ℕ := Set.Icc r.start.toNat r.stop.toNat

/-- The lists that calls lead to, from the empty one: `rlist_free` with regions of numbers that
are not on the list, `rlist_alloc` with sizes from 1 on. -/
inductive Reach : List Rlist → Prop
  | init : Reach []
  | free {l l' : List Rlist} (m : Bool) (r : Region) : Reach l → Disjoint r.set (set l) →
      rlistFree m l r.start r.stop = .ok l' → Reach l'
  | alloc {l l' : List Rlist} {size loc : BitVec 32} : Reach l → 0 < size.toNat →
      size.toNat < 2 ^ 32 - 1 → rlistAlloc size l = some (loc, l') → Reach l'

/-- Every list that is reached is canonical. -/
theorem Reach.canonical {l : List Rlist} (h : Reach l) : Canonical l := by
  induction h with
  | init => exact ⟨apart_nil _, by simp [Bounded]⟩
  | @free k _ m r _ hd hok ih =>
    have hf := rlistFree_meets (m := m) ih r.le r.lt hd
    by_cases hm : m = true ∨ Touches r.start r.stop (set k)
    · rcases hf.1 hm with ⟨l', hl', hcan, -⟩
      rw [hok] at hl'
      cases hl'
      exact hcan
    · rw [hf.2 hm] at hok
      cases hok
  | alloc _ hs _ hok ih =>
    have hal := rlistAlloc_meets ih hs
    rw [hok] at hal
    exact hal.1

/-- In every list that calls lead to: the list is canonical; a call of `rlist_free` adds exactly
its region if and only if the region touches a number on the list or `malloc` has an element;
`rlist_alloc` removes the lowest run of `size` numbers, and returns 0 just when there is none. -/
theorem reach_exact {l : List Rlist} (h : Reach l) :
    Canonical l ∧
    (∀ (m : Bool) (r : Region), Disjoint r.set (set l) →
      ((∃ l', rlistFree m l r.start r.stop = .ok l' ∧ Canonical l' ∧ set l' = set l ∪ r.set) ↔
        m = true ∨ Touches r.start r.stop (set l))) ∧
    ∀ size : BitVec 32, 0 < size.toNat → size.toNat < 2 ^ 32 - 1 →
      (rlistAlloc size l = none ↔ ∀ a, ¬run a size ⊆ set l) ∧
      ∀ loc l', rlistAlloc size l = some (loc, l') → Canonical l' ∧
        run loc.toNat size ⊆ set l ∧ (∀ a, run a size ⊆ set l → loc.toNat ≤ a) ∧
        set l' = set l \ run loc.toNat size := by
  have hcan := h.canonical
  refine ⟨hcan, ?_, ?_⟩
  · intro m r hd
    have hf := rlistFree_meets (m := m) hcan r.le r.lt hd
    constructor
    · rintro ⟨l', hok, -⟩
      by_contra hm
      rw [hf.2 hm] at hok
      cases hok
    · exact hf.1
  · intro size hs _
    have hal := rlistAlloc_meets hcan hs
    refine ⟨⟨fun hnone => ?_, fun hno => ?_⟩, fun loc l' hok => ?_⟩
    · rw [hnone] at hal
      exact hal
    · cases hr : rlistAlloc size l with
      | none => rfl
      | some r =>
        rw [hr] at hal
        exact absurd hal.2.1 (hno _)
    · rw [hok] at hal
      exact hal

/-- A swap area of a hundred blocks, of which the first ten are taken. -/
theorem reach_swap : Reach [⟨110, 199⟩] := by
  apply @Reach.alloc [⟨100, 199⟩] [⟨110, 199⟩] 10 100
  · exact Reach.free true ⟨100, 199, by decide, by decide⟩ Reach.init (by simp) rfl
  · decide
  · decide
  · rfl

/-- Given back, the ten blocks are joined to the others, without a new element. -/
theorem reach_exact_swap : ∃ l', rlistFree false [⟨110, 199⟩] 100 109 = .ok l' ∧
    Canonical l' ∧ set l' = set [⟨110, 199⟩] ∪ Set.Icc 100 109 := by
  apply ((reach_exact reach_swap).2.1 false ⟨100, 109, by decide, by decide⟩ ?_).mpr
  · right
    left
    simp
  · apply Set.disjoint_left.mpr
    intro n hn
    have hn' : n ≤ 109 := hn.2
    simp
    omega

/-- When `malloc` gives no element, the first region of a list is not added. -/
theorem rlistFree_no_element : Reach [] ∧ Disjoint (Set.Icc 100 199) (set []) ∧
    ¬∃ l', rlistFree false [] 100 199 = .ok l' ∧ set l' = set [] ∪ Set.Icc 100 199 := by
  refine ⟨Reach.init, by simp, ?_⟩
  rintro ⟨l', hok, -⟩
  cases hok

end Rlist
