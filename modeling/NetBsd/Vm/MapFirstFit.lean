import Mathlib
import NetBsd.Vm.MapRuns

/-!
# First fit

`vm_map_find` looks for the lowest place for a range. At the beginning of a map it skips what lies
below the end of `first_free`, which is to be mapped as a whole. `vm_map_insert` moves `first_free`
from the header to any entry that it puts in front of all others, since the end of the header is
that of the map; a gap in front of the new entry is then skipped.

## Main definitions

* `Clear`, `Lowest`: the places for a range, and the lowest of them
* `FirstFit`: what `vm_map_find` is for
* `Filled`: everything below the end of `first_free` is mapped
* `Careful`: the steps that leave no gap in front of `first_free`

## Main results

* `find_filled`, `remove_filled`, `simplify_filled`: what the operations keep
* `find_firstFit`: first fit in careful runs
-/

namespace AddressMap

open Segments

variable {O : Type} {L : ObjectLayer O} {m m' : VmMap} {k k' : Kernel O} {c : Ctx O}
  {e p : Entry} {l pre post rest : List Entry} {x y start stop addr length : BitVec 32} {n : ℕ}

/-! ## Places -/

/-- The range of `length` bytes from `x` on is unmapped. -/
def Clear (l : List Entry) (length x : BitVec 32) : Prop :=
  ∀ y, x ≤ y → y.toNat < x.toNat + length.toNat → mappingAt l y = none

/-- The range from `x` on is a place in the map, not below `addr`. -/
structure Place (m : VmMap) (addr length x : BitVec 32) : Prop where
  above : addr ≤ x
  lower : m.minOffset ≤ x
  upper : x.toNat + length.toNat ≤ m.maxOffset.toNat
  clear : Clear m.entries length x

def Lowest (m : VmMap) (addr length x : BitVec 32) : Prop :=
  Place m addr length x ∧ ∀ y, Place m addr length y → x ≤ y

theorem mapped_of_mem (he : e ∈ l) (h₁ : e.start ≤ x) (h₂ : x < e.stop) :
    mappingAt l x ≠ none := by
  induction l with
  | nil => cases he
  | cons f l ih =>
    by_cases hf : f.start ≤ x ∧ x < f.stop
    · rw [mappingAt_cons_pos hf]
      exact Option.some_ne_none _
    · rw [mappingAt_cons_neg hf]
      obtain rfl | he := List.mem_cons.mp he
      · exact absurd ⟨h₁, h₂⟩ hf
      · exact ih he

/-- A range over the start of an entry is not clear. -/
theorem not_clear_of_over (hs : start ≤ x) (hlen : length ≠ 0)
    (hover : e.start.toNat < start.toNat + length.toNat) (hx : x < e.stop) (he : e.start < e.stop) :
    ¬Clear (e :: l) length x := by
  intro hclear
  have hpos : length.toNat ≠ 0 := fun h => hlen (BitVec.eq_of_toNat_eq h)
  rw [le_iff] at hs
  rw [lt_iff] at hx he
  by_cases hin : e.start ≤ x
  · refine mapped_of_mem List.mem_cons_self hin (lt_iff.mpr hx) (hclear x (BitVec.le_refl x) ?_)
    omega
  · rw [le_iff] at hin
    refine mapped_of_mem List.mem_cons_self (BitVec.le_refl _) (lt_iff.mpr he)
      (hclear e.start ?_ ?_)
    · rw [le_iff]
      omega
    · omega

theorem Clear.tail (h : Clear (e :: l) length x) (hx : e.stop ≤ x) : Clear l length x := by
  intro y hy hlt
  have hnone := h y hy hlt
  rw [mappingAt_cons_neg] at hnone
  · exact hnone
  · rintro ⟨-, hin⟩
    rw [le_iff] at hx hy
    rw [lt_iff] at hin
    omega

/-- The loop of `vm_map_find` gives up when the range would end behind the map. -/
theorem past_end_iff {maxOffset : BitVec 32} :
    start + length > maxOffset ∨ start + length < start ↔
      maxOffset.toNat < start.toNat + length.toNat := by
  have hs := start.isLt
  have hn := length.isLt
  have hm := maxOffset.isLt
  rw [gt_iff_lt, lt_iff, lt_iff, BitVec.toNat_add]
  omega

/-- The loop of `vm_map_find` finds the lowest place behind `start`. -/
theorem fit_lowest {maxOffset : BitVec 32} {entry : Option ℕ} (hlen : length ≠ 0)
    (hl : Placed start.toNat maxOffset.toNat post) :
    (fit length maxOffset start entry post = none ∧
      ∀ x, start ≤ x → x.toNat + length.toNat ≤ maxOffset.toNat → ¬Clear post length x) ∨
    ∃ a r, fit length maxOffset start entry post = some (a, r) ∧ start ≤ a ∧
      a.toNat + length.toNat ≤ maxOffset.toNat ∧ Clear post length a ∧
      ∀ x, start ≤ x → x < a → ¬Clear post length x := by
  have hpos : length.toNat ≠ 0 := fun h => hlen (BitVec.eq_of_toNat_eq h)
  induction post generalizing start entry with
  | nil =>
    rw [fit]
    by_cases hend : start + length > maxOffset ∨ start + length < start
    · rw [if_pos hend]
      refine .inl ⟨rfl, fun x hx hle _ => ?_⟩
      rw [past_end_iff] at hend
      rw [le_iff] at hx
      omega
    · rw [if_neg hend]
      rw [past_end_iff] at hend
      refine .inr ⟨start, entry, rfl, BitVec.le_refl _, by omega, fun _ _ _ => rfl,
        fun x hx hlt => ?_⟩
      rw [le_iff] at hx
      rw [lt_iff] at hlt
      omega
  | cons next rest ih =>
    rw [fit]
    obtain ⟨hlo, hne, hrest⟩ := hl
    unfold Entry.lo at hlo hne
    unfold Entry.hi at hne hrest
    by_cases hend : start + length > maxOffset ∨ start + length < start
    · rw [if_pos hend]
      refine .inl ⟨rfl, fun x hx hle _ => ?_⟩
      rw [past_end_iff] at hend
      rw [le_iff] at hx
      omega
    rw [if_neg hend]
    rw [past_end_iff] at hend
    have hsum : (start + length).toNat = start.toNat + length.toNat := by
      have hm := maxOffset.isLt
      rw [BitVec.toNat_add]
      omega
    by_cases hfits : next.start ≥ start + length
    · -- The range fits in front of the next entry.
      rw [if_pos hfits]
      refine .inr ⟨start, entry, rfl, BitVec.le_refl _, by omega, fun y hy hlt => ?_,
        fun x hx hlt => ?_⟩
      · rw [ge_iff_le, le_iff, hsum] at hfits
        exact Placed.mappingAt_below (show Placed next.lo maxOffset.toNat (next :: rest) from
          ⟨le_rfl, hne, hrest⟩) (by unfold Entry.lo; omega)
      · rw [le_iff] at hx
        rw [lt_iff] at hlt
        omega
    · -- No place begins before the end of the next entry.
      rw [if_neg hfits]
      rw [ge_iff_le, le_iff, hsum, not_le] at hfits
      have hskip : ∀ x, start ≤ x → x < next.stop → ¬Clear (next :: rest) length x :=
        fun x hx hlt => not_clear_of_over hx hlen hfits hlt (lt_iff.mpr hne)
      have hstart : start ≤ next.stop := le_iff.mpr (by omega)
      obtain ⟨hnone, hno⟩ | ⟨a, r, hsome, hle, hupper, hclear, hno⟩ :=
        @ih next.stop (some next.addr) hrest
      · refine .inl ⟨hnone, fun x hx hup hclear => ?_⟩
        by_cases hlt : x < next.stop
        · exact hskip x hx hlt hclear
        · -- Behind the next entry only the rest of the list counts.
          have hge : next.stop ≤ x := BitVec.not_lt.mp hlt
          exact hno x hge hup (hclear.tail hge)
      · refine .inr ⟨a, r, hsome, BitVec.le_trans hstart hle, hupper, fun y hy hlt => ?_,
          fun x hx hlt hclear => ?_⟩
        · rw [mappingAt_cons_neg]
          · exact hclear y hy hlt
          · rintro ⟨-, hin⟩
            rw [le_iff] at hle hy
            rw [lt_iff] at hin
            omega
        · by_cases hlt' : x < next.stop
          · exact hskip x hx hlt' hclear
          · have hge : next.stop ≤ x := BitVec.not_lt.mp hlt'
            exact hno x hge hlt (hclear.tail hge)

/-! ## The search -/

/-- Everything in the map below the end of `first_free` is mapped. -/
def Filled (m : VmMap) : Prop :=
  ∀ e ∈ m.entries, m.firstFree = some e.addr →
    ∀ x, m.minOffset ≤ x → x < e.stop → mappingAt m.entries x ≠ none

/-- The place that `vm_map_find` begins at: what it skips is mapped. -/
theorem firstPlace_skips (hg : Good n m) (hf : Filled m) (hmax : start ≤ m.maxOffset) :
    ∃ m' s entry pre post, firstPlace m start = .ok (m', s, entry, post) ∧
      m.entries = pre ++ post ∧ (∀ e ∈ pre, e.stop ≤ s) ∧
      Placed s.toNat m.maxOffset.toNat post ∧ start ≤ s ∧
      ∀ x, start ≤ x → x < s → mappingAt m.entries x ≠ none := by
  -- The entries before one that a search stops at, and those behind it.
  have hsplit : ∀ pre e post, m.entries = pre ++ e :: post →
      (∀ f ∈ pre ++ [e], f.stop ≤ e.stop) ∧ Placed e.stop.toNat m.maxOffset.toNat post := by
    intro pre e post hent
    obtain ⟨i, hpre, hlo, hne, hpost⟩ := laid_append.mp (hent ▸ hg.placed)
    refine ⟨fun f hf => ?_, hpost⟩
    obtain hf | hf := List.mem_append.mp hf
    · have hhi := (hpre.mem hf).2.2
      unfold Entry.hi at hhi hne
      exact le_iff.mpr (by omega)
    · rw [List.mem_singleton.mp hf]
      exact BitVec.le_refl _
  rw [firstPlace]
  by_cases hstart : start = m.minOffset
  · -- The search begins at `first_free`, and what it skips is mapped by `hf`.
    rw [if_pos hstart]
    obtain ⟨pre, post, hs, hent, -, hhead⟩ := seek_live hg.firstFree
    rw [hs]
    cases hfree : m.firstFree with
    | none =>
      rw [hfree] at hs
      cases hs
      refine ⟨m, start, none, [], m.entries, rfl, rfl, fun _ h => absurd h List.not_mem_nil, ?_,
        BitVec.le_refl _, fun x hx hlt => ?_⟩
      · rw [hstart]
        exact hg.placed
      · rw [le_iff] at hx
        rw [lt_iff] at hlt
        omega
    | some a =>
      obtain ⟨e, he, haddr⟩ := hhead a hfree
      cases post with
      | nil => cases he
      | cons e' post =>
        obtain rfl : e' = e := Option.some.inj he
        obtain ⟨hpre, hpost⟩ := hsplit pre e' post hent
        have hmem : e' ∈ m.entries := by
          rw [hent]
          exact List.mem_append_right _ List.mem_cons_self
        refine ⟨m, e'.stop, some a, pre ++ [e'], post, rfl, by rw [hent, List.append_assoc]; rfl,
          hpre, hpost, ?_, fun x hx hlt => hf e' hmem (by rw [hfree, haddr]) x (hstart ▸ hx) hlt⟩
        obtain ⟨hlo, hne, -⟩ := hg.placed.mem hmem
        rw [hstart, le_iff]
        unfold Entry.lo Entry.hi at *
        omega
  · -- It begins at the entry that `vm_map_lookup_entry` finds, which is all that it skips.
    rw [if_neg hstart]
    obtain ⟨q, r, hl, hfit, -, -⟩ := hg.lookupEntry start
    rw [hl]
    cases r with
    | found pre e post =>
      obtain ⟨hent, hlo, hhi⟩ := hfit
      obtain ⟨hpre, hpost⟩ := hsplit pre e post hent
      refine ⟨_, e.stop, some e.addr, pre ++ [e], post, rfl, by rw [hent, List.append_assoc]; rfl,
        hpre, hpost, BitVec.le_of_lt hhi, fun x hx hlt => ?_⟩
      refine mapped_of_mem ?_ (BitVec.le_trans hlo hx) hlt
      rw [hent]
      exact List.mem_append_right _ List.mem_cons_self
    | between pre post =>
      obtain ⟨hent, hpre, hpost⟩ := hfit
      refine ⟨_, start, lastAddr pre, pre, post, rfl, hent, hpre, ?_, BitVec.le_refl _,
        fun x hx hlt => ?_⟩
      · obtain ⟨i, -, hpl⟩ := laid_append.mp (hent ▸ hg.placed)
        exact hpl.tighten (le_iff.mp hmax) (fun e he => (lt_iff.mp (hpost e he)).le)
          fun e he => (hpl.mem he).2.2
      · rw [le_iff] at hx
        rw [lt_iff] at hlt
        omega

/-- The insertion that ends `vm_map_find`. -/
def insertAt (L : ObjectLayer O) (m : VmMap) (k : Kernel O) (object : Option ℕ)
    (offset length a : BitVec 32) : Except Fault (Kern × BitVec 32 × VmMap × Kernel O) := do
  let (r, m, k) ← vmMapInsert L m k object offset a (a + length)
  return (r, a, m, k)

/-- `vm_map_find` inserts at the lowest place, or finds that there is none. -/
theorem vmMapFind_lowest (hg : Good n m) (hf : Filled m) (object : Option ℕ) (offset : BitVec 32)
    (hlen : length ≠ 0) :
    (∃ q, vmMapFind L m k object offset addr length true =
        .ok (.noSpace, addr, { m with hint := q }, k) ∧ ∀ x, ¬Place m addr length x) ∨
      ∃ a q, vmMapFind L m k object offset addr length true =
        insertAt L { m with hint := q } k object offset length a ∧ Live m.entries q ∧
          Lowest m addr length a := by
  have hpos : length.toNat ≠ 0 := fun h => hlen (BitVec.eq_of_toNat_eq h)
  rw [vmMapFind, if_pos rfl]
  dsimp only
  generalize hst : (if addr < m.minOffset then m.minOffset else addr) = start
  have hle : m.minOffset ≤ start ∧ addr ≤ start := by
    rw [← hst]
    split_ifs with hlt
    · exact ⟨BitVec.le_refl _, BitVec.le_of_lt hlt⟩
    · exact ⟨BitVec.not_lt.mp hlt, BitVec.le_refl _⟩
  have hbegin : ∀ x, Place m addr length x → start ≤ x := by
    intro x hx
    rw [← hst]
    split_ifs
    · exact hx.lower
    · exact hx.above
  by_cases hmax : start > m.maxOffset
  · rw [if_pos hmax]
    refine .inl ⟨m.hint, rfl, fun x hx => ?_⟩
    have h₁ := le_iff.mp (hbegin x hx)
    have h₂ := hx.upper
    rw [gt_iff_lt, lt_iff] at hmax
    omega
  rw [if_neg hmax]
  obtain ⟨m', s, entry, pre, post, hfirst, hent, hpre, hpost, hs, hskip⟩ :=
    firstPlace_skips hg hf (BitVec.not_lt.mp hmax)
  obtain ⟨q, rfl, hq, hentry, hsub⟩ := firstPlace_spec hg hfirst
  -- From `s` on only the entries of `post` count, and no place is in front of `s`.
  have hclear : ∀ x, s ≤ x → (Clear m.entries length x ↔ Clear post length x) := by
    intro x hx
    refine forall_congr' fun y => imp_congr_right fun hy => ?_
    rw [hent, mappingAt_append, mappingAt_of_before hpre (BitVec.le_trans hx hy), Option.none_or]
  have hbehind : ∀ x, Place m addr length x → s ≤ x := by
    intro x hx
    by_contra hlt
    refine hskip x (hbegin x hx) (BitVec.not_le.mp hlt) (hx.clear x (BitVec.le_refl x) ?_)
    omega
  rw [hfirst]
  simp only [bind, Except.bind]
  obtain ⟨hnone, hno⟩ | ⟨a, r, hsome, hsa, hupper, hfree, hno⟩ := @fit_lowest post s length
    m.maxOffset entry hlen hpost
  · rw [hnone]
    exact .inl ⟨q, rfl, fun x hx =>
      hno x (hbehind x hx) hx.upper ((hclear x (hbehind x hx)).mp hx.clear)⟩
  · rw [hsome]
    refine .inr ⟨a, r, rfl, ?_, ?_, fun y hy => ?_⟩
    · obtain rfl | ⟨e, he, rfl⟩ := fit_spec hsome
      · exact hentry
      · exact live_some.mpr (hsub (addr_mem he))
    · have hstart := BitVec.le_trans hs hsa
      exact ⟨BitVec.le_trans hle.2 hstart, BitVec.le_trans hle.1 hstart, hupper,
        (hclear a hsa).mpr hfree⟩
    · by_contra hlt
      exact hno y (hbehind y hy) (BitVec.not_le.mp hlt) ((hclear y (hbehind y hy)).mp hy.clear)

/-- There is room at a place, so that only the coalescing of objects may fail. -/
theorem insertAt_place {q : Option ℕ} {object : Option ℕ} {offset a : BitVec 32}
    (hg : Good n m) (hq : Live m.entries q) (hlen : length ≠ 0) (ha : Place m addr length a) :
    ∃ q' pre post, Room { m with hint := q' } a (a + length) pre post ∧
      vmMapInsert L { m with hint := q } k object offset a (a + length) =
        insertBetween L { m with hint := q' } k object offset a (a + length) pre post := by
  have hpos : length.toNat ≠ 0 := fun h => hlen (BitVec.eq_of_toNat_eq h)
  have hupper := ha.upper
  have hsum : (a + length).toNat = a.toNat + length.toNat := by
    have hm := m.maxOffset.isLt
    rw [BitVec.toNat_add]
    omega
  have hstop : a + length ≤ m.maxOffset := by
    rw [le_iff]
    omega
  have hlt : a < a + length := by
    rw [lt_iff]
    omega
  have hfree : mappingAt m.entries a = none := ha.clear a (BitVec.le_refl a) (by omega)
  obtain ⟨q', r, hl, hfit, hq', -⟩ := (hg.saveHint hq).lookupEntry a
  rw [vmMapInsert, if_neg, hl]
  · cases r with
    | found pre e post =>
      obtain ⟨hent, hlo, hhi⟩ := hfit
      refine absurd hfree (mapped_of_mem (e := e) ?_ hlo hhi)
      rw [hent]
      exact List.mem_append_right _ List.mem_cons_self
    | between pre post =>
      obtain ⟨hent, hpre, hpost⟩ := hfit
      have hbehind : ∀ e ∈ post, a + length ≤ e.start := by
        intro e he
        by_contra hover
        rw [le_iff, not_le, hsum] at hover
        have hlo := hpost e he
        have hmem : e ∈ m.entries := by
          rw [hent]
          exact List.mem_append_right _ he
        obtain ⟨-, hne, -⟩ := hg.placed.mem hmem
        exact mapped_of_mem hmem (BitVec.le_refl _) (lt_iff.mpr hne)
          (ha.clear e.start (BitVec.le_of_lt hlo) hover)
      refine ⟨q', pre, post, ⟨hent, hpre, hbehind, hlt, ha.lower, hstop⟩, ?_⟩
      simp only [bind, Except.bind]
      rw [if_neg]
      cases post with
      | nil => exact Bool.false_ne_true
      | cons e post =>
        have hle := BitVec.not_lt.mpr (hbehind e List.mem_cons_self)
        simpa using hle
  · rintro (h | h | h)
    · exact BitVec.not_lt.mpr ha.lower h
    · exact BitVec.not_lt.mpr hstop h
    · exact BitVec.not_lt.mpr h hlt

/-- `vm_map_find` gives the lowest place, or finds none if there is none; it can fail otherwise only
where the objects are coalesced. -/
def FirstFit (L : ObjectLayer O) (m : VmMap) : Prop :=
  ∀ (k : Kernel O) object offset addr length, length ≠ 0 →
    (∀ v a m' k', vmMapFind L m k object offset addr length true = .ok (v, a, m', k') →
      (v = .success ∧ Lowest m addr length a) ∨ (v = .noSpace ∧ ∀ x, ¬Place m addr length x)) ∧
    ∀ f, vmMapFind L m k object offset addr length true = .error f →
      ∃ o off size more, L.coalesce k.objects o off size more = .error f

theorem extendPrev_error {h : Header} {o : O} {object : Option ℕ} {q : Option Entry} {f : Fault}
    (hext : extendPrev L h o object q start stop = .error f) :
    ∃ po off size more, L.coalesce o po off size more = .error f := by
  cases object with
  | some a => cases hext
  | none =>
    cases q with
    | none => cases hext
    | some p =>
      simp only [extendPrev] at hext
      split at hext
      · split_ifs at hext
        exact ⟨_, _, _, _, hext⟩
      · cases hext

/-- An entry that goes on ends where the range begins. -/
theorem extendPrev_stop {h : Header} {o o' : O} {object : Option ℕ}
    (hext : extendPrev L h o object (some p) start stop = .ok (true, o')) : p.stop = start := by
  cases object with
  | some a => cases hext
  | none =>
    simp only [extendPrev] at hext
    split at hext
    · split_ifs at hext with hc
      · exact hc.1
      · cases hext
    · cases hext

theorem insertBetween_result {object : Option ℕ} {offset : BitVec 32} :
    (∃ m' k', insertBetween L m k object offset start stop pre post = .ok (.success, m', k')) ∨
      ∃ f, insertBetween L m k object offset start stop pre post = .error f ∧
        ∃ o off size more, L.coalesce k.objects o off size more = .error f := by
  rw [insertBetween]
  cases hext : extendPrev L m.toHeader k.objects object pre.getLast? start stop with
  | error f => exact .inr ⟨f, rfl, extendPrev_error hext⟩
  | ok r =>
    obtain ⟨extended, o⟩ := r
    simp only [bind, Except.bind]
    split <;> exact .inl ⟨_, _, rfl⟩

theorem Good.firstFit (hg : Good n m) (hf : Filled m) : FirstFit L m := by
  intro k object offset addr length hlen
  obtain ⟨q, hfind, hno⟩ | ⟨a, q, hfind, hq, hlow⟩ :=
    @vmMapFind_lowest O L m k addr length n hg hf object offset hlen
  · rw [hfind]
    refine ⟨fun v a m' k' h => ?_, fun f h => ?_⟩
    · cases h
      exact .inr ⟨rfl, hno⟩
    · cases h
  · obtain ⟨q', pre, post, -, hins⟩ :=
      @insertAt_place O L m k addr length n q object offset a hg hq hlen hlow.1
    rw [hfind, insertAt, hins]
    obtain ⟨m₁, k₁, hok⟩ | ⟨f₁, hok, hcoal⟩ := @insertBetween_result O L { m with hint := q' } k
      pre post a (a + length) object offset
    · rw [hok]
      refine ⟨fun v a' m' k' h => ?_, fun f h => ?_⟩
      · cases h
        exact .inl ⟨rfl, hlow⟩
      · cases h
    · rw [hok]
      refine ⟨fun v a' m' k' h => ?_, fun f h => ?_⟩
      · cases h
      · cases h
        exact hcoal

/-! ## What keeps everything below `first_free` mapped -/

/-- The range lies in front of all entries, but not at the beginning of the map, and `first_free` is
the header. -/
structure Opens (m : VmMap) (addr length : BitVec 32) : Prop where
  firstFree : m.firstFree = none
  lower : m.minOffset < addr
  upper : addr.toNat + length.toNat ≤ m.maxOffset.toNat
  front : ∀ e ∈ m.entries, addr.toNat + length.toNat ≤ e.start.toNat

/-- An entry of a good map is known by its address. -/
theorem Good.eq_of_addr (hg : Good n m) (he : e ∈ m.entries) (hp : p ∈ m.entries)
    (h : e.addr = p.addr) : e = p :=
  List.inj_on_of_nodup_map hg.nodup he hp h

theorem Filled.saveHint (h : Filled m) (q : Option ℕ) : Filled { m with hint := q } := h

/-- A new range keeps what is below `first_free` mapped, unless it is put in front of a gap. -/
theorem insertBetween_filled {object : Option ℕ} {offset : BitVec 32} {v : Kern}
    (hg : Good k.nextEntry m) (hp : Plain m.entries) (hf : Filled m)
    (hr : Room m start stop pre post)
    (hfront : m.firstFree = none → pre = [] → start = m.minOffset)
    (h : insertBetween L m k object offset start stop pre post = .ok (v, m', k')) :
    Filled m' := by
  obtain ⟨hkept, -, -, -, f, -, hon⟩ := insertBetween_spec hg hp hr h
  -- What was mapped is mapped, and so is the new range.
  have hold : ∀ x, mappingAt m.entries x ≠ none → mappingAt m'.entries x ≠ none := by
    intro x hx
    by_cases hin : start ≤ x ∧ x < stop
    · rw [(hon x).1 hin]
      exact Option.some_ne_none _
    · rw [(hon x).2 hin]
      exact hx
  have hnew : ∀ x, start ≤ x → x < stop → mappingAt m'.entries x ≠ none := by
    intro x h₁ h₂
    rw [(hon x).1 ⟨h₁, h₂⟩]
    exact Option.some_ne_none _
  obtain ⟨⟨extended, o⟩, hext, h⟩ := Fault.bind_eq_ok.mp h
  have hmem : ∀ e, e ∈ pre ∨ e ∈ post → e ∈ m.entries := by
    intro e he
    rw [hr.entries]
    exact List.mem_append.mpr he
  dsimp only at h
  split at h
  · -- The entry before the range goes on.
    rename_i p hlast
    cases h
    have hpmem : p ∈ pre := List.mem_of_getLast? hlast
    rw [hlast] at hext
    have hstop := extendPrev_stop hext
    intro e he hfree x hmin hx
    have hcase : e ∈ m.entries ∨ e = { p with stop := stop } := by
      obtain he | he := List.mem_append.mp he
      · exact .inl (hmem e (.inl (List.mem_of_mem_dropLast he)))
      · obtain rfl | he := List.mem_cons.mp he
        · exact .inr rfl
        · exact .inl (hmem e (.inr he))
    obtain he | rfl := hcase
    · exact hold x (hf e he hfree x hmin hx)
    · by_cases hlt : x < p.stop
      · exact hold x (hf p (hmem p (.inl hpmem)) hfree x hmin hlt)
      · exact hnew x (hstop ▸ BitVec.not_lt.mp hlt) hx
  · cases h
    intro e he hfree x hmin hx
    dsimp only at he hfree hmin
    split_ifs at hfree with hc
    · -- `first_free` is moved to the new entry.
      have heq : e = newEntry k.nextEntry object offset start stop :=
        hkept.good.eq_of_addr he (List.mem_append_right _ List.mem_cons_self)
          (Option.some.inj hfree).symm
      rw [heq] at hx
      by_cases hlt : start ≤ x
      · exact hnew x hlt hx
      · -- In front of it is nothing, or the old `first_free`, which ends where it begins.
        obtain rfl | ⟨l, p, rfl⟩ := List.eq_nil_or_concat pre
        · rw [hfront hc.1 rfl] at hlt
          exact absurd hmin hlt
        · rw [List.concat_eq_append] at hc hmem
          have hlast : lastAddr (l ++ [p]) = some p.addr := by
            rw [lastAddr, List.getLast?_concat]
            rfl
          have hge : start ≤ p.stop := by
            have hprev := hc.2
            rw [prevStop, List.getLast?_concat] at hprev
            exact hprev
          refine hold x (hf p (hmem p (.inl ?_)) (hc.1.trans hlast) x hmin ?_)
          · exact List.mem_append_right _ List.mem_cons_self
          · rw [le_iff] at hge hlt
            rw [lt_iff]
            omega
    · -- `first_free` stays, and is none of the new entry.
      have hbelow := hg.below e.addr (hg.firstFree e.addr hfree)
      refine hold x (hf e (hmem e ?_) hfree x hmin hx)
      obtain he | he := List.mem_append.mp he
      · exact .inl he
      · obtain rfl | he := List.mem_cons.mp he
        · exact absurd hbelow (lt_irrefl _)
        · exact .inr he

/-- `vm_map_insert` keeps what is below `first_free` mapped, unless it opens a gap. -/
theorem vmMapInsert_filled {object : Option ℕ} {offset : BitVec 32} {v : Kern}
    (hg : Good k.nextEntry m) (hp : Plain m.entries) (hf : Filled m)
    (hfront : m.firstFree = none → start < stop → stop ≤ m.maxOffset → m.minOffset ≤ start →
      (∀ e ∈ m.entries, stop ≤ e.start) → start = m.minOffset)
    (h : vmMapInsert L m k object offset start stop = .ok (v, m', k')) : Filled m' := by
  rw [vmMapInsert] at h
  split_ifs at h with hbad
  · cases h
    exact hf
  · simp only [not_or, gt_iff_lt, ge_iff_le] at hbad
    obtain ⟨hmin, hmax, hlt⟩ := hbad
    obtain ⟨q, r, hl, hfit, hq, -⟩ := hg.lookupEntry start
    rw [hl] at h
    obtain ⟨_, hok, h⟩ := Fault.bind_eq_ok.mp h
    cases hok
    cases r with
    | found pre e post =>
      cases h
      exact hf
    | between pre post =>
      obtain ⟨hent, hpre, hpost⟩ := hfit
      dsimp only at h
      split_ifs at h with hnext
      · cases h
        exact hf
      · have hbehind : ∀ e ∈ post, stop ≤ e.start := by
          apply hg.behind hent
          intro next hmem
          rw [hmem] at hnext
          exact BitVec.not_lt.mp (by simpa using hnext)
        have hroom : Room { m with hint := q } start stop pre post :=
          ⟨hent, hpre, hbehind, BitVec.not_le.mp hlt, BitVec.not_lt.mp hmin,
            BitVec.not_lt.mp hmax⟩
        refine insertBetween_filled (hg.saveHint hq) hp (hf.saveHint q) hroom ?_ h
        rintro hfree rfl
        refine hfront hfree hroom.nonempty hroom.upper hroom.lower fun e he => ?_
        rw [hent] at he
        exact hbehind e he

theorem vmMapFind_filled {object : Option ℕ} {offset a : BitVec 32} {findSpace : Bool} {v : Kern}
    (hg : Good k.nextEntry m) (hp : Plain m.entries) (hf : Filled m)
    (hc : ¬Opens m addr length)
    (h : vmMapFind L m k object offset addr length findSpace = .ok (v, a, m', k')) :
    Filled m' := by
  -- A range that is not empty does not wrap around.
  have hsum : ∀ {s : BitVec 32}, s < s + length → (s + length).toNat = s.toNat + length.toNat := by
    intro s hs
    have h₁ := s.isLt
    have h₂ := length.isLt
    rw [lt_iff, BitVec.toNat_add] at hs
    rw [BitVec.toNat_add]
    omega
  cases findSpace with
  | false =>
    obtain ⟨⟨v₁, m₁, k₁⟩, hins, h⟩ := Fault.bind_eq_ok.mp h
    cases h
    refine vmMapInsert_filled hg hp hf (fun hfree hlt hmax hmin hall => ?_) hins
    by_contra hne
    refine hc ⟨hfree, ?_, ?_, fun e he => ?_⟩
    · have hne' : addr.toNat ≠ m.minOffset.toNat := fun h => hne (BitVec.eq_of_toNat_eq h)
      rw [le_iff] at hmin
      rw [lt_iff]
      omega
    · rw [← hsum hlt]
      exact le_iff.mp hmax
    · rw [← hsum hlt]
      exact le_iff.mp (hall e he)
  | true =>
    -- The range is put at the lowest place, so that a gap in front of it is one by `hc` only.
    by_cases hlen : length = 0
    · -- An empty range is not inserted.
      subst hlen
      rw [vmMapFind, if_pos rfl] at h
      dsimp only at h
      generalize (if addr < m.minOffset then m.minOffset else addr) = s₀ at h
      split_ifs at h
      · cases h
        exact hf
      · obtain ⟨⟨m₁, s, entry, post⟩, hfirst, h⟩ := Fault.bind_eq_ok.mp h
        obtain ⟨q, rfl, -⟩ := firstPlace_spec hg hfirst
        dsimp only at h
        split at h
        · cases h
          exact hf
        · obtain ⟨⟨v₁, m₁, k₁⟩, hins, h⟩ := Fault.bind_eq_ok.mp h
          cases h
          rw [vmMapInsert, if_pos (.inr (.inr (by simp)))] at hins
          cases hins
          exact hf
    · obtain ⟨q, hfind, -⟩ | ⟨a', q, hfind, hq, hplace, hlow⟩ :=
        @vmMapFind_lowest O L m k addr length _ hg hf object offset hlen
      · rw [hfind] at h
        cases h
        exact hf
      · rw [hfind] at h
        obtain ⟨⟨v₁, m₁, k₁⟩, hins, h⟩ := Fault.bind_eq_ok.mp h
        cases h
        refine vmMapInsert_filled (hg.saveHint hq) hp (hf.saveHint q)
          (fun hfree hlt hmax hmin hall => ?_) hins
        have habove := hplace.above
        have hupper := hplace.upper
        have hstop := hsum hlt
        rw [le_iff] at habove hmin
        -- Nothing lies below the end of the new range, so that it begins as low as it may.
        have hfirst : ∀ b : BitVec 32, addr ≤ b → m.minOffset ≤ b → b ≤ a → a ≤ b := by
          intro b h₁ h₂ hba
          rw [le_iff] at hba
          refine hlow b ⟨h₁, h₂, by omega, fun y hy hyb => ?_⟩
          exact mappingAt_of_behind hall (lt_iff.mpr (by omega))
        by_contra hne
        by_cases hlow' : addr ≤ m.minOffset
        · have hle := hfirst m.minOffset hlow' (BitVec.le_refl _) (le_iff.mpr hmin)
          rw [le_iff] at hle
          exact hne (BitVec.eq_of_toNat_eq (by dsimp only at *; omega))
        · rw [BitVec.not_le] at hlow'
          have hle := hfirst addr (BitVec.le_refl _) (BitVec.le_of_lt hlow') (le_iff.mpr habove)
          rw [le_iff] at hle
          obtain rfl : a = addr := BitVec.eq_of_toNat_eq (by omega)
          refine hc ⟨hfree, hlow', hupper, fun e he => ?_⟩
          rw [← hstop]
          exact le_iff.mp (hall e he)

/-! ## Removal and simplification -/

/-- The entries of a range end where they did, but for a new one in front of `start`. -/
theorem startRange_stops (hg : Good n m) {found : Bool}
    (h : startRange L m k start = .ok (found, pre, post, c)) (he : e ∈ pre ++ post)
    (hold : e.addr < k.nextEntry) : ∃ e' ∈ m.entries, e'.addr = e.addr ∧ e'.stop = e.stop := by
  obtain ⟨q, r, hr, hfit, -, -⟩ := hg.lookupEntry start
  rw [AddressMap.startRange, hr] at h
  obtain ⟨_, hok, h⟩ := Fault.bind_eq_ok.mp h
  cases hok
  cases r with
  | between pre' post' =>
    cases h
    rw [← hfit.1] at he
    exact ⟨e, he, rfl, rfl⟩
  | found pre' e₀ post' =>
    obtain ⟨⟨front, e₁, c'⟩, hclip, h⟩ := Fault.bind_eq_ok.mp h
    cases h
    have hsame : ∀ f, f ∈ pre' ∨ f = e₀ ∨ f ∈ post' → f ∈ m.entries := by
      intro f hf
      rw [hfit.1, List.mem_append, List.mem_cons]
      exact hf
    rw [clipStart] at hclip
    split_ifs at hclip
    · obtain ⟨k', -, hclip⟩ := Fault.bind_eq_ok.mp hclip
      cases hclip
      simp only [List.append_assoc, List.mem_append, List.mem_cons, List.not_mem_nil, or_false]
        at he
      obtain he | rfl | rfl | he := he
      · exact ⟨e, hsame e (.inl he), rfl, rfl⟩
      · exact absurd hold (lt_irrefl _)
      · exact ⟨e₀, hsame e₀ (.inr (.inl rfl)), rfl, rfl⟩
      · exact ⟨e, hsame e (.inr (.inr he)), rfl, rfl⟩
    · cases hclip
      simp only [List.append_nil, List.mem_append, List.mem_cons] at he
      exact ⟨e, hsame e he, rfl, rfl⟩

theorem vmMapRemove_filled (hg : Good k.nextEntry m) (hp : Plain m.entries) (hf : Filled m)
    (h : vmMapRemove L m k start stop = .ok (m', k')) : Filled m' := by
  have hkept := (vmMapRemove_spec hg hp h).1
  rw [vmMapRemove] at h
  generalize rangeCheck m.toHeader start stop = st at h
  obtain ⟨s, t⟩ := st
  obtain ⟨⟨found, pre, rest, c⟩, hsr, h⟩ := Fault.bind_eq_ok.mp h
  have hstops := fun e => @startRange_stops O L m k c e pre rest s _ hg found hsr
  obtain ⟨q, hs⟩ := hg.startRange hsr
  obtain ⟨y, hy, h⟩ := Fault.bind_eq_ok.mp h
  obtain ⟨⟨rest', c'⟩, hloop, h⟩ := Fault.bind_eq_ok.mp h
  cases h
  obtain ⟨hmin, -, -, -, hfree⟩ := hs.head.eqs
  have hlive : Live (pre ++ rest) c.head.firstFree := by
    rw [hfree]
    exact hg.firstFree.subset hs.keeps
  have hcounts : (dropPointers found s y pre c.head).nentries = c.head.nentries ∧
      (dropPointers found s y pre c.head).size = c.head.size ∧
      (dropPointers found s y pre c.head).firstFree =
        if y ≥ s then lastAddr pre else c.head.firstFree := by
    simp only [dropPointers]
    cases found <;> split_ifs <;> exact ⟨rfl, rfl, rfl⟩
  obtain ⟨-, hhd, hval⟩ := hs.loop hg hp unmapped_none delete_turn
    { c with head := dropPointers found s y pre c.head } hcounts.1 hcounts.2.1 rfl hloop
  have hbelow : ∀ x, x < s → mappingAt (pre ++ rest') x = mappingAt m.entries x :=
    fun x hx => (hval x).2 fun hin => absurd hx (BitVec.not_lt.mpr hin.1)
  -- Below the range everything is as before.
  have hkeep : ∀ p ∈ pre, (∀ x, m.minOffset ≤ x → x < p.stop → mappingAt m.entries x ≠ none) →
      ∀ e ∈ pre ++ rest', e.addr = p.addr →
        ∀ x, m.minOffset ≤ x → x < e.stop → mappingAt (pre ++ rest') x ≠ none := by
    intro p hpm hall e he haddr x hx hlt
    obtain rfl : e = p := hkept.good.eq_of_addr he (List.mem_append_left _ hpm) haddr
    have hstop := hs.before e hpm
    rw [hbelow x]
    · exact hall x hx hlt
    · rw [le_iff] at hstop
      rw [lt_iff] at hlt ⊢
      omega
  have hmin' : c'.head.minOffset = m.minOffset := hkept.minOffset
  have hfree' : c'.head.firstFree = if y ≥ s then lastAddr pre else c.head.firstFree :=
    hhd.eqs.2.2.2.2.trans hcounts.2.2
  intro e he hfirst x hx hlt
  dsimp only at he hfirst hx ⊢
  rw [hmin'] at hx
  rw [hfree'] at hfirst
  obtain ⟨hnone, hyq⟩ | ⟨f, hfm, hsome, hyq⟩ := startOf_spec hy hlive
  · -- From the header on, the range begins at the beginning of the map.
    split_ifs at hfirst with hge
    · obtain ⟨p, hlast, haddr⟩ := Option.map_eq_some_iff.mp hfirst
      have hpm := List.mem_of_getLast? hlast
      refine hkeep p hpm (fun x hx hlt => ?_) e he haddr.symm x hx hlt
      have hstop := hs.before p hpm
      have hbegin : s.toNat ≤ m.minOffset.toNat := by
        rw [hyq, ge_iff_le, hmin, le_iff] at hge
        exact hge
      rw [le_iff] at hstop hx
      rw [lt_iff] at hlt
      omega
    · rw [hnone] at hfirst
      cases hfirst
  · have hold : m.firstFree = some f.addr := by
      rw [← hsome, hfree]
      rfl
    obtain ⟨f', hfm', haddr', hstop'⟩ := hstops f hfm (hg.below _ (hg.firstFree _ hold))
    have hall : ∀ x, m.minOffset ≤ x → x < f.stop → mappingAt m.entries x ≠ none := by
      intro x hx hlt
      rw [← hstop'] at hlt
      exact hf f' hfm' (by rw [hold, haddr']) x hx hlt
    split_ifs at hfirst with hge
    · -- `first_free` ended behind `s`, and goes to the entry in front of the range.
      obtain ⟨p, hlast, haddr⟩ := Option.map_eq_some_iff.mp hfirst
      have hpm := List.mem_of_getLast? hlast
      refine hkeep p hpm (fun x hx hlt => hall x hx ?_) e he haddr.symm x hx hlt
      obtain ⟨-, hne, -⟩ := (hs.edit.placed _ _ hg.placed).mem hfm
      have hstop := hs.before p hpm
      rw [hyq, ge_iff_le, le_iff] at hge
      rw [le_iff] at hstop
      rw [lt_iff] at hlt ⊢
      unfold Entry.lo Entry.hi at hne
      omega
    · -- `first_free` lies in front of the range, and stays.
      have hfpre : f ∈ pre := by
        obtain hfm | hfm := List.mem_append.mp hfm
        · exact hfm
        · exact absurd (hyq ▸ hs.behind f hfm) hge
      rw [hsome] at hfirst
      exact hkeep f hfpre hall e he (Option.some.inj hfirst).symm x hx hlt

theorem vmMapSimplify_filled (hg : Good k.nextEntry m) (hp : Plain m.entries) (hf : Filled m)
    (h : vmMapSimplify L m k start = .ok (m', k')) : Filled m' := by
  obtain ⟨hkept, hmap⟩ := vmMapSimplify_spec hg hp h
  obtain ⟨q, r, hl, hfit, hq, -⟩ := hg.lookupEntry start
  rw [vmMapSimplify, hl] at h
  obtain ⟨_, hok, h⟩ := Fault.bind_eq_ok.mp h
  cases hok
  cases r with
  | between pre post =>
    cases h
    exact hf
  | found pre e post =>
    obtain ⟨hent, hlo, hhi⟩ := hfit
    dsimp only at h
    split at h
    · rename_i p object hlast hobj
      by_cases hc : p.stop = start ∧ m.isMainMap = true ∧ Continues p e
      · rw [if_pos hc] at h
        obtain ⟨o, -, h⟩ := Fault.bind_eq_ok.mp h
        cases h
        have hmem : ∀ f, f ∈ pre ∨ f = e ∨ f ∈ post → f ∈ m.entries := by
          intro f hf
          rw [hent, List.mem_append, List.mem_cons]
          exact hf
        have hpm := hmem p (.inl (List.mem_of_getLast? hlast))
        intro f hfm hfree x hx hlt
        rw [hmap]
        dsimp only at hfm hfree hx
        split_ifs at hfree with hfirst
        · -- `first_free` goes on in the entry before.
          have heq : f = { p with stop := e.stop } :=
            hkept.good.eq_of_addr hfm (List.mem_append_right _ List.mem_cons_self)
              (Option.some.inj hfree).symm
          rw [heq] at hlt
          exact hf e (hmem e (.inr (.inl rfl))) hfirst x hx hlt
        · obtain hfm | hfm := List.mem_append.mp hfm
          · exact hf f (hmem f (.inl (List.mem_of_mem_dropLast hfm))) hfree x hx hlt
          · obtain rfl | hfm := List.mem_cons.mp hfm
            · -- The entry before has grown by the range of `e`.
              by_cases hp' : x < p.stop
              · exact hf p hpm hfree x hx hp'
              · refine mapped_of_mem (hmem e (.inr (.inl rfl))) ?_ hlt
                rw [hc.1] at hp'
                exact BitVec.le_trans hlo (BitVec.not_lt.mp hp')
            · exact hf f (hmem f (.inr (.inr hfm))) hfree x hx hlt
      · rw [if_neg hc] at h
        cases h
        exact hf
    · cases h
      exact hf

/-! ## Runs -/

/-- The steps of `vm_map_find`, `vm_map_remove` and `vm_map_simplify`. -/
def Searches : Op → Prop
  | .find .. => True
  | .remove .. => True
  | .simplify .. => True
  | _ => False

/-- The steps that put no range in front of all entries and a gap. -/
def Careful (m : VmMap) : Op → Prop
  | .find _ _ addr length _ => ¬Opens m addr length
  | _ => True

/-- The maps that steps with `allowed` lead to from `vm_map_init`; between them other maps use the
objects. -/
inductive FitRun (L : ObjectLayer O) (allowed : VmMap → Op → Prop) (lo hi : BitVec 32) :
    VmMap → Kernel O → Prop
  | init (k : Kernel O) : FitRun L allowed lo hi (vmMapInit lo hi) k
  | step {m m' : VmMap} {k k' : Kernel O} {v : Kern} {a : BitVec 32} (op : Op)
      (h : FitRun L allowed lo hi m k) (hop : Searches op) (ha : allowed m op)
      (hs : op.run L m k = .ok (v, a, m', k')) : FitRun L allowed lo hi m' k'
  | others {m : VmMap} {k k' : Kernel O} (h : FitRun L allowed lo hi m k)
      (hk : k.nextEntry ≤ k'.nextEntry) : FitRun L allowed lo hi m k'

variable {lo hi : BitVec 32}

theorem FitRun.inv (hle : lo ≤ hi) (h : FitRun L Careful lo hi m k) :
    Good k.nextEntry m ∧ Plain m.entries ∧ Filled m := by
  induction h with
  | init k =>
    refine ⟨⟨le_iff.mp hle, rfl, rfl, List.nodup_nil, fun x hx => absurd hx List.not_mem_nil,
      live_none, live_none⟩, fun e he => absurd he List.not_mem_nil,
      fun e he => absurd he List.not_mem_nil⟩
  | step op _ hop ha hs ih =>
    obtain ⟨hg, hp, hf⟩ := ih
    have hkept := (Op.run_spec hg hp hs).1
    refine ⟨hkept.good, hkept.plain, ?_⟩
    cases op with
    | find object offset addr length findSpace => exact vmMapFind_filled hg hp hf ha hs
    | remove start stop =>
      obtain ⟨_, hrem, hs⟩ := Fault.bind_eq_ok.mp hs
      cases hs
      exact vmMapRemove_filled hg hp hf hrem
    | simplify start =>
      obtain ⟨_, hsim, hs⟩ := Fault.bind_eq_ok.mp hs
      cases hs
      exact vmMapSimplify_filled hg hp hf hsim
    | insert object offset start stop => exact hop.elim
    | protect start stop newProt setMax => exact hop.elim
    | inherit start stop newInheritance => exact hop.elim
    | pageable start stop newPageable => exact hop.elim
  | others _ hk ih => exact ⟨ih.1.mono hk, ih.2⟩

/-- In runs that put no range in front of all entries and a gap while `first_free` is the header,
`vm_map_find` is first fit. -/
theorem find_firstFit (O : Type) (L : ObjectLayer O) (lo hi : BitVec 32) (m : VmMap) (k : Kernel O)
    (hle : lo ≤ hi) (h : FitRun L Careful lo hi m k) : FirstFit L m := by
  obtain ⟨hg, -, hf⟩ := h.inv hle
  exact hg.firstFit hf

/-- Two pages are mapped, and the first of them is unmapped. -/
theorem find_firstFit_pages : ∃ m : VmMap, m.entries.map Entry.start = [0x2000] ∧
    FirstFit plainObjects m := by
  have h₀ : FitRun plainObjects Careful 0x1000 0x100000 _ _ :=
    FitRun.init (⟨fun _ => none, 1, 0, 0⟩ : Kernel ℕ)
  have h₁ := h₀.step (.find none 0 0x1000 0x2000 true) trivial
    (fun h => absurd h.lower (by decide)) rfl
  have h₂ := h₁.step (.remove 0x1000 0x2000) trivial trivial rfl
  exact ⟨_, rfl, find_firstFit ℕ plainObjects 0x1000 0x100000 _ _ (by decide) h₂⟩

/-- A map with a page behind a gap. -/
def gapMap : VmMap :=
  { vmMapInit 0x1000 0x100000 with
    nentries := 1
    size := 0x1000
    hint := none
    firstFree := some 0
    entries := [newEntry 0 none 0 0x5000 0x6000] }

/-- A page is mapped behind a gap, which `vm_map_find` then skips. -/
theorem find_not_firstFit : ¬∀ (O : Type) (L : ObjectLayer O) (lo hi : BitVec 32) (m : VmMap)
    (k : Kernel O), lo ≤ hi → FitRun L (fun _ _ => True) lo hi m k → FirstFit L m := by
  intro h
  have h₀ : FitRun plainObjects (fun _ _ => True) 0x1000 0x100000 _ _ :=
    FitRun.init (⟨fun _ => none, 1, 0, 0⟩ : Kernel ℕ)
  have h₁ : FitRun plainObjects (fun _ _ => True) 0x1000 0x100000 gapMap
      ⟨fun _ => none, 1, 1, 0⟩ :=
    h₀.step (.find none 0 0x5000 0x1000 true) trivial trivial rfl
  have hfit := h ℕ plainObjects 0x1000 0x100000 _ _ (by decide) h₁
  have hfind := (hfit ⟨fun _ => none, 1, 1, 0⟩ none 0 0x1000 0x1000 (by decide)).1 .success 0x6000
    _ _ rfl
  have hplace : Place gapMap 0x1000 0x1000 0x1000 := by
    refine ⟨by decide, by decide, by decide, fun y _ hlt => ?_⟩
    refine @mappingAt_of_behind _ y 0x5000 (by decide) ?_
    rw [lt_iff]
    exact lt_trans hlt (by decide)
  obtain ⟨-, -, hlow⟩ | ⟨hno, -⟩ := hfind
  · exact absurd (hlow _ hplace) (by decide)
  · cases hno

end AddressMap
