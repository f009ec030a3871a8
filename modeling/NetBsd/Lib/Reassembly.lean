import Mathlib

/-!
# Reassembly queues

Pieces of a stream that arrive in any order, kept as a queue in increasing order of offset with
no overlap. A piece that arrives loses what the piece before it has already, and takes from the
pieces behind it what it covers. Offsets are integers here; a protocol's own arithmetic is shown
to agree with them where it does not wrap.

## Main definitions

* `Seg`: a piece with its offset, its data and a tag
* `insert x l`: the queue with the piece `x`, or `none` when `x` brings nothing
* `cover l`: the offsets the queue has data for
* `Sorted l`: increasing offsets without overlap
* `deliver n l`: the data that follows offset `n` without a gap, and the queue behind it
* `Cut s g`: the data of `g` is the part of the stream `s` at its offset

## Main results

* `insert_none`, `insert_some`: what an insertion keeps and covers
* `deliver_spec`: delivery goes up to the first offset the queue has no data for
-/

namespace Reass

/-- A piece of a stream. -/
structure Seg (α τ : Type) where
  off : ℤ
  data : List α
  tag : τ

variable {α τ : Type} {n : ℤ} {x g h p : Seg α τ} {l l' : List (Seg α τ)}

/-- The offset behind the last element. -/
def Seg.fin (g : Seg α τ) : ℤ := g.off + g.data.length

/-- The piece without its first `i` elements. -/
def Seg.adj (g : Seg α τ) (i : ℤ) : Seg α τ :=
  { g with off := g.off + i, data := g.data.drop i.toNat }

/-- The offsets of the elements. -/
def Seg.span (g : Seg α τ) : Set ℤ := Set.Ico g.off g.fin

/-- What a new piece keeps behind the piece `p` that precedes it. -/
def behind (p : Option (Seg α τ)) (x : Seg α τ) : Option (Seg α τ) :=
  match p with
  | none => some x
  | some p =>
    if 0 < p.fin - x.off then
      if (x.data.length : ℤ) ≤ p.fin - x.off then none else some (x.adj (p.fin - x.off))
    else some x

/-- The pieces behind the new piece `x`, less what `x` covers of them. -/
def clear (x : Seg α τ) : List (Seg α τ) → List (Seg α τ)
  | [] => []
  | q :: rest =>
    if 0 < x.fin - q.off then
      if x.fin - q.off < q.data.length then q.adj (x.fin - q.off) :: rest else clear x rest
    else q :: rest

/-- The pieces of the queue that do not begin after `x` does. -/
def before (x : Seg α τ) (l : List (Seg α τ)) : List (Seg α τ) :=
  l.takeWhile fun q => decide (q.off ≤ x.off)

/-- The pieces of the queue from the first that begins after `x`. -/
def after (x : Seg α τ) (l : List (Seg α τ)) : List (Seg α τ) :=
  l.dropWhile fun q => decide (q.off ≤ x.off)

/-- The queue with the new piece `x` in its place; `none` when `x` is dropped. -/
def insert (x : Seg α τ) (l : List (Seg α τ)) : Option (List (Seg α τ)) :=
  (behind (before x l).getLast? x).map fun x' => before x l ++ x' :: clear x' (after x l)

/-- The offsets the queue has data for. -/
def cover (l : List (Seg α τ)) : Set ℤ := {n | ∃ g ∈ l, n ∈ g.span}

/-- Each piece ends before the next ones begin. -/
def Sorted (l : List (Seg α τ)) : Prop := l.Pairwise fun g h => g.fin ≤ h.off

theorem Seg.off_le_fin (g : Seg α τ) : g.off ≤ g.fin := by
  simp only [Seg.fin]
  omega

@[simp] theorem cover_nil : cover ([] : List (Seg α τ)) = ∅ := by
  simp [cover]

@[simp] theorem cover_cons : cover (g :: l) = g.span ∪ cover l := by
  ext n
  simp [cover]

@[simp] theorem cover_append : cover (l ++ l') = cover l ∪ cover l' := by
  ext n
  simp [cover, or_and_right, exists_or]

theorem mem_span : n ∈ g.span ↔ g.off ≤ n ∧ n < g.fin := Iff.rfl

/-! ## Pieces cut short in front -/

/-- The piece `g` is `h` without some elements in front. -/
def Tail (g h : Seg α τ) : Prop := ∃ i : ℤ, 0 ≤ i ∧ i ≤ h.data.length ∧ g = h.adj i

theorem Tail.refl (g : Seg α τ) : Tail g g := ⟨0, le_rfl, by omega, by simp [Seg.adj]⟩

theorem tail_adj {i : ℤ} (h0 : 0 ≤ i) (hi : i ≤ h.data.length) : Tail (h.adj i) h := ⟨i, h0, hi, rfl⟩

theorem Seg.adj_off (g : Seg α τ) (i : ℤ) : (g.adj i).off = g.off + i := rfl

theorem Seg.adj_length {i : ℤ} (h0 : 0 ≤ i) (hi : i ≤ g.data.length) :
    ((g.adj i).data.length : ℤ) = g.data.length - i := by
  simp only [Seg.adj, List.length_drop]
  omega

theorem Seg.adj_fin {i : ℤ} (h0 : 0 ≤ i) (hi : i ≤ g.data.length) : (g.adj i).fin = g.fin := by
  rw [Seg.fin, Seg.adj_length h0 hi, Seg.adj_off, Seg.fin]
  omega

theorem Tail.fin_eq (ht : Tail g h) : g.fin = h.fin := by
  rcases ht with ⟨i, h0, hi, rfl⟩
  exact Seg.adj_fin h0 hi

theorem Tail.off_le (ht : Tail g h) : h.off ≤ g.off := by
  rcases ht with ⟨i, h0, hi, rfl⟩
  rw [Seg.adj_off]
  omega

theorem Tail.span_subset (ht : Tail g h) : g.span ⊆ h.span := by
  intro n hn
  rw [mem_span] at hn ⊢
  have := ht.off_le
  rw [← ht.fin_eq]
  omega

/-! ## Insertion -/

/-- A piece that is dropped lies inside the piece before it. -/
theorem behind_none {p : Option (Seg α τ)} (hb : behind p x = none) :
    ∃ q, p = some q ∧ x.fin ≤ q.fin := by
  cases p with
  | none => cases hb
  | some q =>
    refine ⟨q, rfl, ?_⟩
    simp only [behind] at hb
    split at hb
    · split at hb
      · simp only [Seg.fin] at *
        omega
      · cases hb
    · cases hb

/-- What is kept of a piece begins behind the piece before it, and nothing else is lost. -/
theorem behind_some {p : Option (Seg α τ)} (hb : behind p x = some g) :
    Tail g x ∧ (∀ q, p = some q → q.fin ≤ g.off) ∧
      (g.off = x.off ∨ ∃ q, p = some q ∧ g.off = q.fin ∧ x.off < q.fin ∧ q.fin < x.fin) := by
  cases p with
  | none =>
    cases hb
    exact ⟨Tail.refl x, fun q hq => (nomatch hq), Or.inl rfl⟩
  | some q =>
    simp only [behind] at hb
    split at hb
    next hpos =>
      split at hb
      · cases hb
      next hlen =>
        cases hb
        have hoff : (x.adj (q.fin - x.off)).off = q.fin := by
          rw [Seg.adj_off]
          omega
        refine ⟨tail_adj (by omega) (by omega), ?_, Or.inr ⟨q, rfl, hoff, by omega, ?_⟩⟩
        · rintro _ ⟨⟩
          exact hoff.ge
        · simp only [Seg.fin] at *
          omega
    next hpos =>
      cases hb
      refine ⟨Tail.refl x, ?_, Or.inl rfl⟩
      rintro _ ⟨⟩
      omega

/-- Clearing what `x` covers of the pieces behind it. -/
theorem clear_spec (hs : Sorted l) (hx : ∀ q ∈ l, x.off ≤ q.off) :
    Sorted (clear x l) ∧ (∀ q ∈ clear x l, x.fin ≤ q.off ∧ ∃ r ∈ l, Tail q r) ∧
      x.span ∪ cover (clear x l) = x.span ∪ cover l := by
  induction l with
  | nil => exact ⟨hs, fun q hq => (nomatch hq), rfl⟩
  | cons q rest ih =>
    rcases List.pairwise_cons.mp hs with ⟨hq, hrest⟩
    have hxq := hx q List.mem_cons_self
    have hq' := q.off_le_fin
    unfold clear
    split
    next hpos =>
      split
      next hlen =>
        have hfin : (q.adj (x.fin - q.off)).fin = q.fin := Seg.adj_fin (by omega) (by omega)
        have hoff : (q.adj (x.fin - q.off)).off = x.fin := by
          rw [Seg.adj_off]
          omega
        refine ⟨List.pairwise_cons.mpr ⟨fun r hr => ?_, hrest⟩, ?_, ?_⟩
        · rw [hfin]
          exact hq r hr
        · intro r hr
          rcases List.mem_cons.mp hr with rfl | hr
          · exact ⟨hoff.ge, q, List.mem_cons_self, tail_adj (by omega) (by omega)⟩
          · refine ⟨?_, r, List.mem_cons_of_mem _ hr, Tail.refl r⟩
            have := hq r hr
            simp only [Seg.fin] at *
            omega
        · ext n
          simp only [cover_cons, Set.mem_union, mem_span, hfin, hoff]
          grind
      next hlen =>
        -- `q` lies inside `x`
        rcases ih hrest (fun r hr => hx r (List.mem_cons_of_mem _ hr)) with ⟨hso, hbe, hco⟩
        refine ⟨hso, fun r hr => ?_, ?_⟩
        · rcases hbe r hr with ⟨hle, t, ht, htail⟩
          exact ⟨hle, t, List.mem_cons_of_mem _ ht, htail⟩
        · rw [hco, cover_cons]
          ext n
          simp only [Set.mem_union, mem_span]
          have hqx : q.fin ≤ x.fin := by
            simp only [Seg.fin] at *
            omega
          grind
    next hpos =>
      refine ⟨hs, fun r hr => ⟨?_, r, hr, Tail.refl r⟩, rfl⟩
      rcases List.mem_cons.mp hr with rfl | hr
      · omega
      · have := hq r hr
        omega

theorem before_append_after (x : Seg α τ) (l : List (Seg α τ)) : before x l ++ after x l = l :=
  List.takeWhile_append_dropWhile

theorem off_le_of_mem_before (hg : g ∈ before x l) : g.off ≤ x.off := by
  simpa using List.all_eq_true.mp List.all_takeWhile g hg

/-- The pieces after `x` begin behind its offset. -/
theorem lt_off_of_mem_after (hs : Sorted l) (hg : g ∈ after x l) : x.off < g.off := by
  rw [← before_append_after x l] at hs
  have hso := (List.pairwise_append.mp hs).2.1
  cases he : after x l with
  | nil =>
    rw [he] at hg
    cases hg
  | cons q rest =>
    have hq : x.off < q.off := by
      have := List.head?_dropWhile_not (fun q : Seg α τ => decide (q.off ≤ x.off)) l
      rw [show l.dropWhile _ = after x l from rfl, he] at this
      simpa using this
    rw [he] at hg hso
    rcases List.mem_cons.mp hg with rfl | hg
    · exact hq
    · have := (List.pairwise_cons.mp hso).1 g hg
      have := q.off_le_fin
      omega

/-- A queue in its parts before and after a new piece. -/
theorem sorted_parts (x : Seg α τ) (hs : Sorted l) :
    Sorted (before x l) ∧ Sorted (after x l) ∧
      ∀ g ∈ before x l, ∀ h ∈ after x l, g.fin ≤ h.off := by
  rw [← before_append_after x l] at hs
  exact List.pairwise_append.mp hs

theorem mem_of_mem_before (hg : g ∈ before x l) : g ∈ l :=
  (List.takeWhile_sublist _).subset hg

theorem mem_of_mem_after (hg : g ∈ after x l) : g ∈ l :=
  (List.dropWhile_sublist _).subset hg

/-- The last piece of a sorted queue ends behind all others. -/
theorem Sorted.fin_le_of_getLast (hs : Sorted l) (hl : l.getLast? = some p) (hg : g ∈ l) :
    g.fin ≤ p.fin := by
  rcases List.getLast?_eq_some_iff.mp hl with ⟨k, rfl⟩
  rcases List.mem_append.mp hg with hg | hg
  · exact ((List.pairwise_append.mp hs).2.2 g hg p (by simp)).trans p.off_le_fin
  · rw [List.mem_singleton.mp hg]

/-- A piece that is dropped brings no new data. -/
theorem insert_none (hi : insert x l = none) : x.span ⊆ cover l := by
  rw [insert, Option.map_eq_none_iff] at hi
  rcases behind_none hi with ⟨q, hq, hfin⟩
  have hmem : q ∈ before x l := List.mem_of_getLast? hq
  intro n hn
  have := off_le_of_mem_before hmem
  rw [mem_span] at hn
  exact ⟨q, mem_of_mem_before hmem, by omega, by omega⟩

/-- A piece that is inserted: the queue stays sorted, covers what it and the piece covered, and
consists of what is left of both. -/
theorem insert_some (hs : Sorted l) (hi : insert x l = some l') :
    Sorted l' ∧ cover l' = cover l ∪ x.span ∧ ∀ g ∈ l', ∃ h ∈ x :: l, Tail g h := by
  rw [insert, Option.map_eq_some_iff] at hi
  rcases hi with ⟨y, hy, rfl⟩
  rcases behind_some hy with ⟨htail, hbe, hlost⟩
  rcases sorted_parts x hs with ⟨hsb, hsa, hba⟩
  have hyfin := htail.fin_eq
  have hyoff := htail.off_le
  -- what precedes `x` ends where the rest of it begins
  have hpre : ∀ g ∈ before x l, g.fin ≤ y.off := by
    intro g hg
    have hsome := List.getLast?_isSome.mpr (List.ne_nil_of_mem hg)
    rcases Option.isSome_iff_exists.mp hsome with ⟨q, hq⟩
    exact (hsb.fin_le_of_getLast hq hg).trans (hbe q hq)
  have hpost : ∀ q ∈ after x l, y.off ≤ q.off := by
    intro q hq
    rcases hlost with ho | ⟨r, hr, ho, -, -⟩
    · rw [ho]
      exact (lt_off_of_mem_after hs hq).le
    · rw [ho]
      exact hba r (List.mem_of_getLast? hr) q hq
  rcases clear_spec hsa hpost with ⟨hsc, hce, hcov⟩
  refine ⟨?_, ?_, ?_⟩
  · refine List.pairwise_append.mpr ⟨hsb, List.pairwise_cons.mpr ⟨fun q hq => (hce q hq).1, hsc⟩, ?_⟩
    intro g hg h hh
    rcases List.mem_cons.mp hh with rfl | hh
    · exact hpre g hg
    · exact ((hpre g hg).trans y.off_le_fin).trans (hce h hh).1
  · -- of `x` only what the piece before has already is lost
    have hx : cover (before x l) ∪ y.span = cover (before x l) ∪ x.span := by
      apply Set.Subset.antisymm
      · exact Set.union_subset_union_right _ htail.span_subset
      · rintro n (hn | hn)
        · exact Or.inl hn
        · by_cases hny : y.off ≤ n
          · exact Or.inr ⟨hny, hyfin ▸ hn.2⟩
          · rcases hlost with ho | ⟨r, hr, ho, -, -⟩
            · rw [mem_span] at hn
              omega
            · have hrm := List.mem_of_getLast? hr
              have := off_le_of_mem_before hrm
              rw [mem_span] at hn
              exact Or.inl ⟨r, hrm, by omega, by omega⟩
    calc cover (before x l ++ y :: clear y (after x l))
        = cover (before x l) ∪ (y.span ∪ cover (clear y (after x l))) := by simp
      _ = (cover (before x l) ∪ y.span) ∪ cover (after x l) := by rw [hcov, Set.union_assoc]
      _ = cover (before x l ++ after x l) ∪ x.span := by
          rw [hx, cover_append, Set.union_assoc, Set.union_assoc, Set.union_comm x.span]
      _ = cover l ∪ x.span := by rw [before_append_after]
  · intro g hg
    rcases List.mem_append.mp hg with hg | hg
    · exact ⟨g, List.mem_cons_of_mem _ (mem_of_mem_before hg), Tail.refl g⟩
    · rcases List.mem_cons.mp hg with rfl | hg
      · exact ⟨x, List.mem_cons_self, htail⟩
      · rcases (hce g hg).2 with ⟨r, hr, ht⟩
        exact ⟨r, List.mem_cons_of_mem _ (mem_of_mem_after hr), ht⟩

/-! ## Delivery -/

/-- The offset and the data that follow offset `n` without a gap, and the queue behind them. -/
def deliver (n : ℤ) : List (Seg α τ) → ℤ × List α × List (Seg α τ)
  | [] => (n, [], [])
  | g :: rest =>
    if g.off = n then
      let r := deliver (n + g.data.length) rest
      (r.1, g.data ++ r.2.1, r.2.2)
    else (n, [], g :: rest)

/-- The elements of the stream `s` from offset `a` to offset `b`. -/
def slice (s : ℤ → α) (a b : ℤ) : List α := (List.range (b - a).toNat).map fun i : ℕ => s (a + i)

/-- The data of the piece is what the stream `s` has there. -/
def Cut (s : ℤ → α) (g : Seg α τ) : Prop := g.data = slice s g.off g.fin

theorem slice_self (s : ℤ → α) (a : ℤ) : slice s a a = [] := by
  simp [slice]

theorem slice_length (s : ℤ → α) {a b : ℤ} (hab : a ≤ b) : ((slice s a b).length : ℤ) = b - a := by
  simp only [slice, List.length_map, List.length_range]
  omega

theorem slice_append (s : ℤ → α) {a b c : ℤ} (hab : a ≤ b) (hbc : b ≤ c) :
    slice s a b ++ slice s b c = slice s a c := by
  have hsum : (c - a).toNat = (b - a).toNat + (c - b).toNat := by omega
  simp only [slice, hsum, List.range_add, List.map_append, List.map_map]
  congr 1
  apply List.map_congr_left
  intro i _
  simp only [Function.comp_apply]
  congr 1
  push_cast
  omega

theorem slice_drop (s : ℤ → α) {a b i : ℤ} (h0 : 0 ≤ i) (hi : a + i ≤ b) :
    (slice s a b).drop i.toNat = slice s (a + i) b := by
  have happ := slice_append s (show a ≤ a + i by omega) hi
  have hlen := slice_length s (show a ≤ a + i by omega)
  rw [← happ, List.drop_append_of_le_length (by omega), List.drop_eq_nil_of_le (by omega)]
  rfl

theorem Tail.cut {s : ℤ → α} (ht : Tail g h) (hc : Cut s h) : Cut s g := by
  rw [Cut, ht.fin_eq]
  rcases ht with ⟨i, h0, hi, rfl⟩
  rw [Seg.adj_off, ← slice_drop s h0 (by simp only [Seg.fin]; omega), ← hc]
  rfl

/-- What is delivered from a sorted queue of cuts of a stream: all of it up to the first offset
the queue has no data for. -/
theorem deliver_spec {s : ℤ → α} (hs : Sorted l) (hn : ∀ g ∈ l, n ≤ g.off)
    (hc : ∀ g ∈ l, Cut s g) :
    n ≤ (deliver n l).1 ∧ (deliver n l).2.1 = slice s n (deliver n l).1 ∧
      (∀ g ∈ (deliver n l).2.2, g ∈ l ∧ (deliver n l).1 < g.off) ∧
      Sorted (deliver n l).2.2 ∧
      cover l = Set.Ico n (deliver n l).1 ∪ cover (deliver n l).2.2 := by
  induction l generalizing n with
  | nil => simp [deliver, slice_self, Sorted]
  | cons g rest ih =>
    rcases List.pairwise_cons.mp hs with ⟨hg, hrest⟩
    have hng := hn g List.mem_cons_self
    unfold deliver
    split
    next hoff =>
      -- the piece joins what was delivered; the others begin behind it
      have hfin : n + g.data.length = g.fin := by rw [Seg.fin, hoff]
      have hlen : n ≤ g.fin := by omega
      have hcut : g.data = slice s n g.fin := by
        rw [← hoff]
        exact hc g List.mem_cons_self
      have hspan : g.span = Set.Ico n g.fin := by rw [Seg.span, hoff]
      rw [hfin]
      rcases ih hrest hg (fun r hr => hc r (List.mem_cons_of_mem _ hr)) with
        ⟨hle, hdata, hbehind, hso, hcov⟩
      refine ⟨hlen.trans hle, ?_, ?_, hso, ?_⟩
      · dsimp only
        rw [hdata, hcut, slice_append s hlen hle]
      · intro r hr
        exact ⟨List.mem_cons_of_mem _ (hbehind r hr).1, (hbehind r hr).2⟩
      · dsimp only
        rw [cover_cons, hcov, hspan, ← Set.union_assoc, Set.Ico_union_Ico_eq_Ico hlen hle]
    next hoff =>
      refine ⟨le_rfl, (slice_self s n).symm, ?_, hs, by simp⟩
      intro r hr
      refine ⟨hr, ?_⟩
      dsimp only
      rcases List.mem_cons.mp hr with rfl | hr
      · omega
      · have := hg r hr
        have := g.off_le_fin
        omega

end Reass
