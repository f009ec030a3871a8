import Mathlib.Data.BitVec
import Mathlib.Data.List.Nodup
import Mathlib.Data.List.TakeWhile
import NetBsd.Vm.Map

/-!
# The entries of an address map

What the pieces of the map operations do to a list of entries. The entries of a map are laid out as
segments of the address space, and stand for a partial function from addresses to objects with
offset, protection and inheritance.

## Main definitions

* `Placed`, `mappingAt`: laid out entries, and the function that they stand for
* `Edit`: what every piece of an operation keeps about the entries and the counts
* `Good`: entries, counts and cached pointers fit together

## Main results

* `Good.lookupEntry`: the lookup finds the entry of an address or its place
* `Good.startRange`, `overRange_edit`: the first entry of a range, and the loop over a range
-/

namespace AddressMap

open Segments

variable {O : Type} {L : ObjectLayer O} {m : VmMap} {k : Kernel O} {c c' c'' : Ctx O}
  {e e' p : Entry} {l l' l'' r r' pre post : List Entry} {a b : ℕ} {x y start stop : BitVec 32}

/-- The first address of an entry. -/
def Entry.lo (e : Entry) : ℕ := e.start.toNat

/-- The address after the last one of an entry. -/
def Entry.hi (e : Entry) : ℕ := e.stop.toNat

/-- Nonempty entries in order, between `a` and `b`. -/
abbrev Placed : ℕ → ℕ → List Entry → Prop := Laid Entry.lo Entry.hi

/-- What an address is mapped to. -/
structure Mapping where
  object : Backing
  offset : BitVec 32
  protection : BitVec 32
  inheritance : Inherit
  deriving DecidableEq

/-- What an entry maps an address to. -/
def Entry.mapping (e : Entry) (x : BitVec 32) : Mapping :=
  ⟨e.object, e.offset + (x - e.start), e.protection, e.inheritance⟩

/-- What the entries map an address to. -/
def mappingAt (l : List Entry) (x : BitVec 32) : Option Mapping :=
  (cover Entry.lo Entry.hi l x.toNat).map fun e => e.mapping x

/-- The lengths of the entries together. -/
def total : List Entry → BitVec 32
  | [] => 0
  | e :: l => (e.stop - e.start) + total l

/-- The addresses of the entries. -/
def addrs (l : List Entry) : List ℕ := l.map Entry.addr

/-- A cached pointer is to the header or to an entry. -/
def Live (l : List Entry) (p : Option ℕ) : Prop := ∀ x ∈ p, x ∈ addrs l

/-- No entry has a sharing map. -/
def Plain (l : List Entry) : Prop := ∀ e ∈ l, ∃ o, e.object = .object o

/-! ## Small facts -/

theorem le_iff : x ≤ y ↔ x.toNat ≤ y.toNat := BitVec.le_def

theorem lt_iff : x < y ↔ x.toNat < y.toNat := BitVec.lt_def

@[simp] theorem total_nil : total [] = 0 := rfl

@[simp] theorem total_cons : total (e :: l) = (e.stop - e.start) + total l := rfl

@[simp] theorem total_append : total (l ++ r) = total l + total r := by
  induction l with
  | nil => simp
  | cons e l ih => simp [ih, add_assoc]

@[simp] theorem addrs_nil : addrs [] = [] := rfl

@[simp] theorem addrs_cons : addrs (e :: l) = e.addr :: addrs l := rfl

@[simp] theorem addrs_append : addrs (l ++ r) = addrs l ++ addrs r := List.map_append ..

theorem mem_addrs {n : ℕ} : n ∈ addrs l ↔ ∃ e ∈ l, e.addr = n := List.mem_map

theorem addr_mem (he : e ∈ l) : e.addr ∈ addrs l := List.mem_map_of_mem he

@[simp] theorem live_none : Live l none := fun _ h => (nomatch h)

@[simp] theorem live_some {n : ℕ} : Live l (some n) ↔ n ∈ addrs l := by simp [Live]

theorem live_lastAddr : Live (l ++ r) (lastAddr l) := by
  intro n hn
  obtain ⟨e, he, rfl⟩ := Option.mem_map.mp hn
  exact addr_mem (List.mem_append_left _ (List.mem_of_getLast? he))

theorem plain_append : Plain (l ++ r) ↔ Plain l ∧ Plain r := by
  simp only [Plain, List.mem_append]
  constructor
  · intro h
    exact ⟨fun e he => h e (Or.inl he), fun e he => h e (Or.inr he)⟩
  · rintro ⟨hl, hr⟩ e (he | he)
    · exact hl e he
    · exact hr e he

theorem plain_cons : Plain (e :: l) ↔ (∃ o, e.object = .object o) ∧ Plain l := by
  simp [Plain]

/-- The lengths of the entries add up without wrapping. -/
theorem Placed.toNat_total (h : Placed a b l) (hb : b < 2 ^ 32) :
    (total l).toNat = (l.map fun e => e.hi - e.lo).sum := by
  induction l generalizing a with
  | nil => rfl
  | cons e l ih =>
    have hle : e.start ≤ e.stop := le_iff.mpr h.2.1.le
    have hsum := h.sum_le
    simp only [List.map_cons, List.sum_cons] at hsum
    rw [total_cons, BitVec.toNat_add, BitVec.toNat_sub_of_le hle, ih h.2.2, List.map_cons,
      List.sum_cons]
    exact Nat.mod_eq_of_lt (by unfold Entry.lo Entry.hi at *; omega)

/-! ## The function the entries stand for -/

@[simp] theorem mappingAt_nil : mappingAt [] x = none := rfl

theorem mappingAt_append (l r : List Entry) (x : BitVec 32) :
    mappingAt (l ++ r) x = (mappingAt l x).or (mappingAt r x) := by
  simp only [mappingAt, cover_append]
  cases cover Entry.lo Entry.hi l x.toNat <;> rfl

theorem mappingAt_cons_pos (h : e.start ≤ x ∧ x < e.stop) :
    mappingAt (e :: l) x = some (e.mapping x) := by
  have hc : e.lo ≤ x.toNat ∧ x.toNat < e.hi := ⟨le_iff.mp h.1, lt_iff.mp h.2⟩
  rw [mappingAt, cover_cons_pos hc]
  rfl

theorem mappingAt_cons_neg (h : ¬(e.start ≤ x ∧ x < e.stop)) :
    mappingAt (e :: l) x = mappingAt l x := by
  have hc : ¬(e.lo ≤ x.toNat ∧ x.toNat < e.hi) := fun h' => h ⟨le_iff.mpr h'.1, lt_iff.mpr h'.2⟩
  rw [mappingAt, cover_cons_neg hc]
  rfl

theorem Placed.mappingAt_below (h : Placed a b l) (hx : x.toNat < a) : mappingAt l x = none := by
  rw [mappingAt, h.cover_below hx]
  rfl

theorem Placed.mappingAt_above (h : Placed a b l) (hx : b ≤ x.toNat) : mappingAt l x = none := by
  rw [mappingAt, h.cover_above hx]
  rfl

theorem mappingAt_eq_none (h : ∀ e ∈ l, ¬(e.start ≤ x ∧ x < e.stop)) : mappingAt l x = none := by
  have hc : cover Entry.lo Entry.hi l x.toNat = none := by
    refine cover_eq_none.mpr fun e he hx => h e he ?_
    exact ⟨le_iff.mpr hx.1, lt_iff.mpr hx.2⟩
  rw [mappingAt, hc]
  rfl

/-- Two entries that continue each other stand for the same as one. -/
theorem mapping_clip (e : Entry) (x y : BitVec 32) :
    e.offset + (y - e.start) + (x - y) = e.offset + (x - e.start) := by
  rw [add_assoc]
  congr 1
  bv_omega

/-! ## Lookup -/

/-- The result of a lookup is the place of the address in the list. -/
def Lookup.Fits (l : List Entry) (x : BitVec 32) : Lookup → Prop
  | .found pre e post => l = pre ++ e :: post ∧ e.start ≤ x ∧ x < e.stop
  | .between pre post =>
    l = pre ++ post ∧ (∀ e ∈ pre, e.stop ≤ x) ∧ ∀ e ∈ post, x < e.start

theorem Lookup.Fits.live {r : Lookup} (h : r.Fits l x) : Live l r.addr := by
  cases r with
  | found pre e post =>
    obtain ⟨rfl, -⟩ := h
    simp [Lookup.addr]
  | between pre post =>
    obtain ⟨rfl, -⟩ := h
    exact live_lastAddr

/-- The search finds the place, when the entries it skips end before the address and those it does
not look at begin behind it. -/
theorem search_fits {last : List Entry} (h : Placed a b (pre ++ l ++ last))
    (hpre : ∀ e ∈ pre, e.stop ≤ x) (hlast : ∀ e ∈ last, x < e.start) :
    (search x last pre l).Fits (pre ++ l ++ last) x := by
  induction l generalizing pre with
  | nil => exact ⟨by simp, hpre, hlast⟩
  | cons cur rest ih =>
    rw [search]
    split_ifs with h₁ h₂
    · exact ⟨by simp, h₂, h₁⟩
    · refine ⟨by simp, hpre, ?_⟩
      -- the entries behind `cur` begin behind its end
      obtain ⟨n, -, hrest⟩ := laid_append.mp (by simpa using h)
      have hcur : x < cur.start := lt_iff.mpr (by have := mt le_iff.mpr h₂; omega)
      intro e he
      rw [List.cons_append, List.mem_cons] at he
      rcases he with rfl | he
      · exact hcur
      · have hlo := (hrest.2.2.mem he).1
        have hle := hrest.2.1
        unfold Entry.lo Entry.hi at hlo hle
        rw [lt_iff] at hcur ⊢
        omega
    · have hcur : cur.stop ≤ x := le_iff.mpr (by have := mt lt_iff.mpr h₁; omega)
      have hpre' : ∀ e ∈ pre ++ [cur], e.stop ≤ x := by
        intro e he
        rcases List.mem_append.mp he with he | he
        · exact hpre e he
        · rw [List.mem_singleton.mp he]
          exact hcur
      have := ih (by simpa using h) hpre'
      simpa using this

theorem seek_live {p : Option ℕ} (h : Live l p) :
    ∃ pre post, seek l p = .ok (pre, post) ∧ l = pre ++ post ∧ (post = [] → l = []) ∧
      ∀ n ∈ p, ∃ e ∈ post.head?, e.addr = n := by
  cases p with
  | none => exact ⟨[], l, rfl, rfl, id, fun _ h => (nomatch h)⟩
  | some n =>
    obtain ⟨e, he, hen⟩ := mem_addrs.mp (live_some.mp h)
    have hsplit : l.takeWhile (fun e => e.addr ≠ n) ++ l.dropWhile (fun e => e.addr ≠ n) = l :=
      List.takeWhile_append_dropWhile
    rw [seek]
    cases hd : l.dropWhile fun e => e.addr ≠ n with
    | nil =>
      -- the search for the address does not run off the list
      have := List.dropWhile_eq_nil_iff.mp hd e he
      simp [hen] at this
    | cons cur rest =>
      refine ⟨_, _, rfl, by rw [← hd, hsplit], fun h => (nomatch h), ?_⟩
      intro n' hn'
      obtain rfl : n = n' := by simpa using hn'
      refine ⟨cur, rfl, ?_⟩
      have := List.head?_dropWhile_not (fun e : Entry => decide (e.addr ≠ n)) l
      rw [hd] at this
      simpa using this

/-- The lookup finds the entry of an address or its place, and changes only the hint. -/
theorem lookupEntry_fits (h : Placed a b m.entries) (hh : Live m.entries m.hint)
    (x : BitVec 32) :
    ∃ p r, lookupEntry m x = .ok ({ m with hint := p }, r) ∧ r.Fits m.entries x ∧
      Live m.entries p ∧ (∀ pre post, r = .between pre post → p = lastAddr pre) := by
  obtain ⟨pre, post, hs, hl, hnil, -⟩ := seek_live hh
  simp only [lookupEntry, hs, bind, Except.bind]
  cases post with
  | nil =>
    have hm := hnil rfl
    obtain ⟨rfl, -⟩ := List.append_eq_nil_iff.mp (hl.symm.trans hm)
    refine ⟨none, _, rfl, ⟨by simpa using hm, by simp, by simp⟩, live_none, ?_⟩
    rintro pre post ⟨⟩
    rfl
  | cons cur rest =>
    have hp := hl ▸ h
    obtain ⟨n, hpre, hcur⟩ := laid_append.mp hp
    dsimp only
    split_ifs with h₁ h₂
    · refine ⟨m.hint, _, rfl, ⟨hl, h₁, h₂⟩, hh, ?_⟩
      rintro pre post ⟨⟩
    · -- the entries before the hint end before it begins
      have hbefore : ∀ e ∈ pre, e.stop ≤ x := by
        intro e he
        have hhi := (hpre.mem he).2.2
        have hlo := hcur.1
        unfold Entry.lo at hlo
        unfold Entry.hi at hhi
        have := le_iff.mp h₁
        exact le_iff.mpr (by omega)
      have hfit : (search x [] pre (cur :: rest)).Fits (pre ++ (cur :: rest) ++ []) x :=
        search_fits (by simpa using hp) hbefore (by simp)
      rw [List.append_nil, ← hl] at hfit
      refine ⟨_, _, rfl, hfit, hfit.live, ?_⟩
      rintro pre' post' he
      rw [he]
      rfl
    · have hbehind : ∀ e ∈ rest, x < e.start := by
        intro e he
        have hlo := (hcur.2.2.mem he).1
        have hle := hcur.2.1
        unfold Entry.lo Entry.hi at hlo hle
        have := mt le_iff.mpr h₁
        exact lt_iff.mpr (by omega)
      have hfit : (search x rest [] (pre ++ [cur])).Fits ([] ++ (pre ++ [cur]) ++ rest) x :=
        search_fits (by simpa using hp) (by simp) hbehind
      rw [show [] ++ (pre ++ [cur]) ++ rest = m.entries by simp [hl]] at hfit
      refine ⟨_, _, rfl, hfit, hfit.live, ?_⟩
      rintro pre' post' he
      rw [he]
      rfl

/-! ## Edits -/

/-- What every piece of an operation keeps: the entries stay in place, the counts move with them,
and new entries have new addresses. Where no entry has a sharing map, none is made. -/
structure Edit (c c' : Ctx O) (l l' : List Entry) : Prop where
  placed : ∀ a b, Placed a b l → Placed a b l'
  nentries : c'.head.nentries - l'.length = c.head.nentries - l.length
  size : c'.head.size - total l' = c.head.size - total l
  next : c.kernel.nextEntry ≤ c'.kernel.nextEntry
  addrs : ∀ n ∈ addrs l', n ∈ addrs l ∨ (c.kernel.nextEntry ≤ n ∧ n < c'.kernel.nextEntry)
  nodup : (∀ n ∈ AddressMap.addrs l, n < c.kernel.nextEntry) → (AddressMap.addrs l).Nodup →
    (AddressMap.addrs l').Nodup
  plain : Plain l → Plain l'
  maps : Plain l →
    c'.kernel.shareMap = c.kernel.shareMap ∧ c'.kernel.nextMap = c.kernel.nextMap

theorem Edit.refl (c : Ctx O) (l : List Entry) : Edit c c l l where
  placed _ _ h := h
  nentries := rfl
  size := rfl
  next := le_rfl
  addrs _ h := Or.inl h
  nodup _ h := h
  plain h := h
  maps _ := ⟨rfl, rfl⟩

theorem Edit.trans (h : Edit c c' l l') (h' : Edit c' c'' l' l'') : Edit c c'' l l'' where
  placed a b hl := h'.placed a b (h.placed a b hl)
  nentries := h'.nentries.trans h.nentries
  size := h'.size.trans h.size
  next := h.next.trans h'.next
  addrs n hn := by
    rcases h'.addrs n hn with hn | hn
    · refine (h.addrs n hn).imp_right fun hn => ?_
      have := h'.next
      omega
    · have := h.next
      exact Or.inr (by omega)
  nodup hlt hl := by
    refine h'.nodup (fun n hn => ?_) (h.nodup hlt hl)
    have := h.next
    rcases h.addrs n hn with hn | hn
    · have := hlt n hn
      omega
    · omega
  plain hl := h'.plain (h.plain hl)
  maps hl := by
    obtain ⟨h₁, h₂⟩ := h.maps hl
    obtain ⟨h₁', h₂'⟩ := h'.maps (h.plain hl)
    exact ⟨h₁'.trans h₁, h₂'.trans h₂⟩

/-- Edits of two parts of a list, one after the other. -/
theorem Edit.append (h : Edit c c' l l') (h' : Edit c' c'' r r') :
    Edit c c'' (l ++ r) (l' ++ r') where
  placed a b hl := by
    obtain ⟨n, hl, hr⟩ := laid_append.mp hl
    exact laid_append.mpr ⟨n, h.placed _ _ hl, h'.placed _ _ hr⟩
  nentries := by
    have h₁ := h.nentries
    have h₂ := h'.nentries
    simp only [List.length_append, Nat.cast_add]
    omega
  size := by
    calc c''.head.size - total (l' ++ r')
        = c''.head.size - total r' - total l' := by rw [total_append, sub_sub, add_comm]
      _ = c'.head.size - total l' - total r := by rw [h'.size, sub_right_comm]
      _ = c.head.size - total (l ++ r) := by rw [h.size, total_append, sub_sub]
  next := h.next.trans h'.next
  addrs n hn := by
    have := h.next
    have := h'.next
    rw [addrs_append, List.mem_append] at hn ⊢
    rcases hn with hn | hn
    · rcases h.addrs n hn with hn | hn
      · exact Or.inl (Or.inl hn)
      · exact Or.inr (by omega)
    · rcases h'.addrs n hn with hn | hn
      · exact Or.inl (Or.inr hn)
      · exact Or.inr (by omega)
  nodup hlt hl := by
    rw [addrs_append, List.nodup_append'] at hl ⊢
    obtain ⟨hl, hr, hd⟩ := hl
    have hltl n (hn : n ∈ AddressMap.addrs l) : n < c.kernel.nextEntry :=
      hlt n (by rw [addrs_append]; exact List.mem_append_left _ hn)
    have hltr n (hn : n ∈ AddressMap.addrs r) : n < c.kernel.nextEntry :=
      hlt n (by rw [addrs_append]; exact List.mem_append_right _ hn)
    have hn := h.next
    refine ⟨h.nodup hltl hl, h'.nodup (fun n hn' => (hltr n hn').trans_le hn) hr, ?_⟩
    -- an address is old on one side only, and new addresses are given once
    intro n hnl hnr
    rcases h.addrs n hnl with hnl | hnl <;> rcases h'.addrs n hnr with hnr | hnr
    · exact hd hnl hnr
    · have := hltl n hnl
      omega
    · have := hltr n hnr
      omega
    · omega
  plain hl := by
    rw [plain_append] at hl ⊢
    exact ⟨h.plain hl.1, h'.plain hl.2⟩
  maps hl := by
    rw [plain_append] at hl
    obtain ⟨h₁, h₂⟩ := h.maps hl.1
    obtain ⟨h₁', h₂'⟩ := h'.maps hl.2
    exact ⟨h₁'.trans h₁, h₂'.trans h₂⟩

/-- An edit in place of one entry, which keeps where it is and whose address it has. -/
theorem Edit.of_same {e e' : Entry} (ha : e'.addr = e.addr) (hs : e'.start = e.start)
    (ht : e'.stop = e.stop) (hp : (∃ o, e.object = .object o) → ∃ o, e'.object = .object o)
    (hn : c'.head.nentries = c.head.nentries) (hsz : c'.head.size = c.head.size)
    (hx : c'.kernel.nextEntry = c.kernel.nextEntry)
    (hsh : c'.kernel.shareMap = c.kernel.shareMap ∧ c'.kernel.nextMap = c.kernel.nextMap) :
    Edit c c' [e] [e'] where
  placed a b h := by
    simpa [Entry.lo, Entry.hi, hs, ht] using h
  nentries := by simp [hn]
  size := by simp [hsz, hs, ht]
  next := hx.ge
  addrs n h := Or.inl (by simpa [ha] using h)
  nodup _ _ := by simp
  plain h := by
    intro e'' he
    rw [List.mem_singleton.mp he]
    exact hp (h e List.mem_cons_self)
  maps _ := hsh

/-- The cached pointers of the map make no difference to an edit. -/
theorem Edit.of_counts (hn : c'.head.nentries = c.head.nentries)
    (hs : c'.head.size = c.head.size) (hk : c'.kernel = c.kernel) (l : List Entry) :
    Edit c c' l l where
  placed _ _ h := h
  nentries := by rw [hn]
  size := by rw [hs]
  next := by rw [hk]
  addrs _ h := Or.inl h
  nodup _ h := h
  plain h := h
  maps _ := by rw [hk]; exact ⟨rfl, rfl⟩

/-! ## Clipping -/

/-- A reference changes the objects only, unless it is to a sharing map. -/
theorem reference_eq {b : Backing} {k' : Kernel O} (h : reference L k b = .ok k') :
    k'.nextEntry = k.nextEntry ∧
      ((∃ o, b = .object o) → k'.shareMap = k.shareMap ∧ k'.nextMap = k.nextMap) := by
  cases b with
  | object o =>
    obtain ⟨objects, -, hk⟩ := Fault.bind_eq_ok.mp h
    cases hk
    exact ⟨rfl, fun _ => ⟨rfl, rfl⟩⟩
  | shareMap s =>
    simp only [reference] at h
    split at h
    · cases h
    · cases h
      exact ⟨rfl, fun ⟨_, h⟩ => (nomatch h)⟩

/-- Splitting an entry in two at an address inside it, with a reference for the new part. -/
theorem Edit.split {e₁ e₂ : Entry} {k' : Kernel O} (hr : reference L c.link.kernel e.object = .ok k')
    (hx : e.start < x ∧ x < e.stop) (hs₁ : e₁.start = e.start) (ht₁ : e₁.stop = x)
    (hs₂ : e₂.start = x) (ht₂ : e₂.stop = e.stop)
    (ha : (e₁.addr = e.addr ∧ e₂.addr = c.kernel.nextEntry) ∨
      (e₁.addr = c.kernel.nextEntry ∧ e₂.addr = e.addr))
    (ho₁ : e₁.object = e.object) (ho₂ : e₂.object = e.object) :
    Edit c { c.link with kernel := k' } [e] [e₁, e₂] := by
  obtain ⟨hnext, hshare⟩ := reference_eq hr
  have hnext' : k'.nextEntry = c.kernel.nextEntry + 1 := hnext
  refine ⟨?_, ?_, ?_, ?_, ?_, ?_, ?_, ?_⟩
  · intro a b h
    have h₁ := lt_iff.mp hx.1
    have h₂ := lt_iff.mp hx.2
    simp only [laid_cons, laid_nil, Entry.lo, Entry.hi, hs₁, ht₁, hs₂, ht₂] at h ⊢
    omega
  · simp [Ctx.link]
    omega
  · simp only [total_cons, total_nil, hs₁, ht₁, hs₂, ht₂, Ctx.link, add_zero,
      sub_add_sub_cancel']
  · show _ ≤ k'.nextEntry
    omega
  · intro n hn
    show _ ∨ (_ ∧ n < k'.nextEntry)
    simp only [addrs_cons, addrs_nil, List.mem_cons, List.not_mem_nil, or_false] at hn ⊢
    omega
  · intro hlt _
    have := hlt e.addr (by simp)
    simp only [addrs_cons, addrs_nil, List.nodup_cons, List.mem_cons, List.not_mem_nil, or_false,
      not_false_eq_true, List.nodup_nil, and_true]
    omega
  · intro hp
    obtain ⟨o, ho⟩ := hp e List.mem_cons_self
    intro e' he'
    simp only [List.mem_cons, List.not_mem_nil, or_false] at he'
    rcases he' with rfl | rfl
    · exact ⟨o, ho₁.trans ho⟩
    · exact ⟨o, ho₂.trans ho⟩
  · intro hp
    exact hshare (hp e List.mem_cons_self)

/-- Two entries end to end stand for the same as one that covers both. -/
theorem mappingAt_split {e₁ e₂ : Entry} (hx : e.start < x ∧ x < e.stop) (hs₁ : e₁.start = e.start)
    (ht₁ : e₁.stop = x) (hs₂ : e₂.start = x) (ht₂ : e₂.stop = e.stop)
    (h₁ : e₁.mapping y = e.mapping y) (h₂ : e₂.mapping y = e.mapping y) :
    mappingAt [e₁, e₂] y = mappingAt [e] y := by
  have hx₁ := lt_iff.mp hx.1
  have hx₂ := lt_iff.mp hx.2
  by_cases hin : e.start ≤ y ∧ y < e.stop
  · rw [mappingAt_cons_pos hin]
    by_cases hy : y < x
    · rw [mappingAt_cons_pos (by rw [hs₁, ht₁]; exact ⟨hin.1, hy⟩), h₁]
    · have hxy : x ≤ y := le_iff.mpr (by have := mt lt_iff.mpr hy; omega)
      rw [mappingAt_cons_neg (by rw [ht₁]; exact fun h => hy h.2),
        mappingAt_cons_pos (by rw [hs₂, ht₂]; exact ⟨hxy, hin.2⟩), h₂]
  · rw [le_iff, lt_iff] at hin
    rw [mappingAt_cons_neg (e := e) (by rw [le_iff, lt_iff]; exact hin),
      mappingAt_cons_neg (by rw [hs₁, ht₁, le_iff, lt_iff]; omega),
      mappingAt_cons_neg (by rw [hs₂, ht₂, le_iff, lt_iff]; omega)]

/-- Only the counts of a map differ. -/
def SameHead (h h' : Header) : Prop := ∃ n s, h' = { h with nentries := n, size := s }

theorem SameHead.refl (h : Header) : SameHead h h := ⟨h.nentries, h.size, rfl⟩

theorem SameHead.trans {h h' h'' : Header} (h₁ : SameHead h h') (h₂ : SameHead h' h'') :
    SameHead h h'' := by
  obtain ⟨n, s, rfl⟩ := h₁
  obtain ⟨n', s', rfl⟩ := h₂
  exact ⟨n', s', rfl⟩

theorem SameHead.eqs {h h' : Header} (hs : SameHead h h') :
    h'.minOffset = h.minOffset ∧ h'.maxOffset = h.maxOffset ∧ h'.isMainMap = h.isMainMap ∧
      h'.hint = h.hint ∧ h'.firstFree = h.firstFree := by
  obtain ⟨n, s, rfl⟩ := hs
  exact ⟨rfl, rfl, rfl, rfl, rfl⟩

/-- Clipping the start of an entry leaves a front part before `x` and the entry from `x` on. -/
theorem clipStart_spec (h : clipStart L e x c = .ok (l, e', c')) (hx : e.start ≤ x ∧ x < e.stop) :
    Edit c c' [e] (l ++ [e']) ∧ SameHead c.head c'.head ∧
      (∀ y, mappingAt (l ++ [e']) y = mappingAt [e] y) ∧ e'.addr = e.addr ∧ e'.start = x ∧
      ∀ f ∈ l, f.stop ≤ x := by
  rw [clipStart] at h
  split_ifs at h with hlt
  · obtain ⟨k', hr, hk⟩ := Fault.bind_eq_ok.mp h
    cases hk
    refine ⟨Edit.split hr ⟨hlt, hx.2⟩ rfl rfl rfl rfl (Or.inr ⟨rfl, rfl⟩) rfl rfl,
      ⟨_, _, rfl⟩, fun y => ?_, rfl, rfl, ?_⟩
    · refine mappingAt_split ⟨hlt, hx.2⟩ rfl rfl rfl rfl rfl ?_
      simp only [Entry.mapping, mapping_clip]
    · intro f hf
      rw [List.mem_singleton.mp hf]
      exact le_iff.mpr le_rfl
  · cases h
    have hxe : e.start = x := BitVec.le_antisymm hx.1 (by
      have := mt lt_iff.mpr hlt
      exact le_iff.mpr (by omega))
    exact ⟨Edit.refl c [e], SameHead.refl _, fun y => rfl, rfl, hxe, by simp⟩

/-- Clipping the end of an entry leaves the entry up to `x` and a back part, if any, from `x` on. -/
theorem clipEnd_spec (h : clipEnd L e x c = .ok (e', l, c')) (hx : e.start < x)
    (he : e.start < e.stop) :
    Edit c c' [e] (e' :: l) ∧ SameHead c.head c'.head ∧
      (∀ y, mappingAt (e' :: l) y = mappingAt [e] y) ∧ e'.addr = e.addr ∧ e'.start = e.start ∧
      e'.start < e'.stop ∧ e'.stop ≤ x ∧
      (l = [] ∧ e' = e ∨ ∃ f, l = [f] ∧ f.start = x ∧ e'.stop = x) := by
  rw [clipEnd] at h
  split_ifs at h with hlt
  · obtain ⟨k', hr, hk⟩ := Fault.bind_eq_ok.mp h
    cases hk
    refine ⟨Edit.split hr ⟨hx, hlt⟩ rfl rfl rfl rfl (Or.inl ⟨rfl, rfl⟩) rfl rfl,
      ⟨_, _, rfl⟩, fun y => ?_, rfl, rfl, hx, le_iff.mpr le_rfl, Or.inr ⟨_, rfl, rfl, rfl⟩⟩
    refine mappingAt_split ⟨hx, hlt⟩ rfl rfl rfl rfl rfl ?_
    simp only [Entry.mapping, mapping_clip]
  · cases h
    exact ⟨Edit.refl c [e], SameHead.refl _, fun y => rfl, rfl, rfl, he,
      le_iff.mpr (by have := mt lt_iff.mpr hlt; omega), Or.inl ⟨rfl, rfl⟩⟩

/-! ## Loops over a range -/

/-- `R` relates what the entries stood for and stand for before `stop`; from `stop` on nothing
changes. -/
def Within (R : BitVec 32 → Option Mapping → Option Mapping → Prop) (stop : BitVec 32)
    (l l' : List Entry) : Prop :=
  ∀ x, (x < stop → R x (mappingAt l x) (mappingAt l' x)) ∧
    (¬x < stop → mappingAt l' x = mappingAt l x)

/-- What one turn of a loop does: an edit of its entry, which changes what the entry stands for by
`R`. -/
def Turn (R : BitVec 32 → Option Mapping → Option Mapping → Prop)
    (body : Entry → Ctx O → Except Fault (List Entry × Ctx O)) : Prop :=
  ∀ e c kept c', body e c = .ok (kept, c') → e.start < e.stop → (∃ o, e.object = .object o) →
    Edit c c' [e] kept ∧ SameHead c.head c'.head ∧
      ∀ x, R x (mappingAt [e] x) (mappingAt kept x)

/-- The entries of a list end to end with another stand at each address for what one of them
stands for. -/
theorem mappingAt_append_of_le {n : ℕ} (hr : Placed n b r) (hx : x.toNat < n) :
    mappingAt (l ++ r) x = mappingAt l x := by
  rw [mappingAt_append, hr.mappingAt_below hx, Option.or_none]

theorem mappingAt_append_of_ge {n : ℕ} (hl : Placed a n l) (hx : n ≤ x.toNat) :
    mappingAt (l ++ r) x = mappingAt r x := by
  rw [mappingAt_append, hl.mappingAt_above hx, Option.none_or]

/-- The loop over a range is an edit, and changes what the entries stand for before `stop` only. -/
theorem overRange_spec {R : BitVec 32 → Option Mapping → Option Mapping → Prop}
    {body : Entry → Ctx O → Except Fault (List Entry × Ctx O)} (hR : ∀ x, R x none none)
    (hbody : Turn R body) (h : overRange L body stop l c = .ok (l', c')) (hl : Placed a b l)
    (hp : Plain l) : Edit c c' l l' ∧ SameHead c.head c'.head ∧ Within R stop l l' := by
  induction l generalizing a c c' l' with
  | nil =>
    cases h
    exact ⟨Edit.refl _ _, SameHead.refl _, fun x => ⟨fun _ => hR x, fun _ => rfl⟩⟩
  | cons e rest ih =>
    obtain ⟨-, he, hrest⟩ := id hl
    rw [overRange] at h
    split_ifs at h with hlt
    · obtain ⟨⟨e₁, back, c₁⟩, hclip, h⟩ := Fault.bind_eq_ok.mp h
      obtain ⟨⟨kept, c₂⟩, hb, h⟩ := Fault.bind_eq_ok.mp h
      obtain ⟨⟨rest', c₃⟩, hgo, h⟩ := Fault.bind_eq_ok.mp h
      cases h
      obtain ⟨hed, hhd, hmap, -, hs₁, hne, hle, hback⟩ := clipEnd_spec hclip hlt (lt_iff.mpr he)
      obtain ⟨hpe, hprest⟩ := plain_cons.mp hp
      have hpe₁ := hed.plain (plain_cons.mpr ⟨hpe, by simp [Plain]⟩) e₁ List.mem_cons_self
      obtain ⟨hed', hhd', hval⟩ := hbody _ _ _ _ hb hne hpe₁
      have hkept : Placed e₁.lo e₁.hi kept := hed'.placed _ _ ⟨le_rfl, lt_iff.mp hne, le_rfl⟩
      have hlo : e₁.lo = e.lo := congrArg BitVec.toNat hs₁
      rcases hback with ⟨rfl, rfl⟩ | ⟨f, rfl, hf, ht⟩
      · rw [if_pos rfl] at hgo
        obtain ⟨hed'', hhd'', hval'⟩ := ih hgo hrest hprest
        refine ⟨(hed.trans hed').append hed'', (hhd.trans hhd').trans hhd'', fun x => ?_⟩
        -- an address is in the entry or behind it
        by_cases hx : x.toNat < e₁.hi
        · rw [show e₁ :: rest = [e₁] ++ rest from rfl, mappingAt_append_of_le hrest hx,
            mappingAt_append_of_le (hed''.placed _ _ hrest) hx]
          refine ⟨fun _ => hval x, fun hn => ?_⟩
          have := le_iff.mp hle
          have := mt lt_iff.mpr hn
          unfold Entry.hi at hx
          omega
        · have hx : e₁.hi ≤ x.toNat := by omega
          have hone : Placed e₁.lo e₁.hi [e₁] := ⟨le_rfl, lt_iff.mp hne, le_rfl⟩
          rw [show e₁ :: rest = [e₁] ++ rest from rfl, mappingAt_append_of_ge hone hx,
            mappingAt_append_of_ge hkept hx]
          exact hval' x
      · rw [if_neg (by simp)] at hgo
        cases hgo
        have hcat : Edit c c' ([e] ++ rest) (kept ++ ([f] ++ rest)) := by
          have h₁ := hed.append (Edit.refl c₁ rest)
          have h₂ := hed'.append (Edit.refl c' ([f] ++ rest))
          exact h₁.trans h₂
        refine ⟨hcat, hhd.trans hhd', fun x => ?_⟩
        have hfull : Placed e.lo b (e₁ :: ([f] ++ rest)) :=
          (hed.append (Edit.refl c₁ rest)).placed _ _ ⟨le_rfl, he, hrest⟩
        have hsame : mappingAt (e :: rest) x = mappingAt (e₁ :: ([f] ++ rest)) x := by
          rw [show e :: rest = [e] ++ rest from rfl, mappingAt_append, ← hmap, ← mappingAt_append]
          rfl
        rw [hsame, show e₁ :: ([f] ++ rest) = [e₁] ++ ([f] ++ rest) from rfl]
        have htail : Placed e₁.hi b ([f] ++ rest) := hfull.2.2
        have hone : Placed e₁.lo e₁.hi [e₁] := ⟨le_rfl, lt_iff.mp hne, le_rfl⟩
        have hstop : e₁.hi = stop.toNat := congrArg BitVec.toNat ht
        constructor
        · intro hx
          have hx := lt_iff.mp hx
          rw [mappingAt_append_of_le htail (by omega), mappingAt_append_of_le htail (by omega)]
          exact hval x
        · intro hx
          have hx := mt lt_iff.mpr hx
          rw [mappingAt_append_of_ge hone (by omega), mappingAt_append_of_ge hkept (by omega)]
    · cases h
      refine ⟨Edit.refl _ _, SameHead.refl _, fun x => ⟨fun hx => ?_, fun _ => rfl⟩⟩
      have hnone : mappingAt (e :: rest) x = none := by
        refine Placed.mappingAt_below (a := e.lo) ⟨le_rfl, he, hrest⟩ ?_
        have := lt_iff.mp hx
        have := mt lt_iff.mpr hlt
        unfold Entry.lo
        omega
      rw [hnone]
      exact hR x

/-- A loop whose turns keep the address of their entry keeps all addresses. -/
theorem overRange_keeps {body : Entry → Ctx O → Except Fault (List Entry × Ctx O)}
    (hbody : ∀ e c kept c', body e c = .ok (kept, c') → e.addr ∈ addrs kept)
    (h : overRange L body stop l c = .ok (l', c')) : addrs l ⊆ addrs l' := by
  induction l generalizing c c' l' with
  | nil => exact List.nil_subset _
  | cons e rest ih =>
    rw [overRange] at h
    split_ifs at h with hlt
    · obtain ⟨⟨e₁, back, c₁⟩, hclip, h⟩ := Fault.bind_eq_ok.mp h
      obtain ⟨⟨kept, c₂⟩, hb, h⟩ := Fault.bind_eq_ok.mp h
      obtain ⟨⟨rest', c₃⟩, hgo, h⟩ := Fault.bind_eq_ok.mp h
      cases h
      have haddr : e₁.addr = e.addr := by
        rw [clipEnd] at hclip
        split_ifs at hclip
        · obtain ⟨k', -, hk⟩ := Fault.bind_eq_ok.mp hclip
          cases hk
          rfl
        · cases hclip
          rfl
      have hrest : addrs rest ⊆ addrs rest' := by
        split_ifs at hgo
        · exact ih hgo
        · cases hgo
          rw [addrs_append]
          exact List.subset_append_right ..
      rw [addrs_append, addrs_cons]
      refine List.cons_subset.mpr ⟨List.mem_append_left _ ?_, ?_⟩
      · rw [← haddr]
        exact hbody _ _ _ _ hb
      · exact List.subset_append_of_subset_right _ hrest
    · cases h
      exact List.Subset.refl _

/-! ## Maps -/

/-- The entries, the counts and the cached pointers of a map fit together, and the entries have
addresses below `n`. -/
structure Good (n : ℕ) (m : VmMap) : Prop where
  placed : Placed m.minOffset.toNat m.maxOffset.toNat m.entries
  nentries : m.nentries = m.entries.length
  size : m.size = total m.entries
  nodup : (addrs m.entries).Nodup
  below : ∀ x ∈ addrs m.entries, x < n
  hint : Live m.entries m.hint
  firstFree : Live m.entries m.firstFree

theorem Live.subset {q : Option ℕ} (h : Live l q) (hl : addrs l ⊆ addrs l') : Live l' q :=
  fun x hx => hl (h x hx)

/-- An edit of the entries keeps a map good, if the cached pointers stay live. -/
theorem Good.of_edit (hg : Good k.nextEntry m) {q : Option ℕ}
    (h : Edit ⟨m.toHeader.saveHint q, k⟩ c m.entries l) (hmin : c.head.minOffset = m.minOffset)
    (hmax : c.head.maxOffset = m.maxOffset) (hhint : Live l c.head.hint)
    (hfree : Live l c.head.firstFree) : Good c.kernel.nextEntry ⟨c.head, l⟩ where
  placed := by
    rw [hmin, hmax]
    exact h.placed _ _ hg.placed
  nentries := by
    have h₁ := h.nentries
    have h₂ := hg.nentries
    simp only [Header.saveHint] at h₁
    show c.head.nentries = l.length
    omega
  size := by
    have h₁ := h.size
    simp only [Header.saveHint, hg.size, sub_self] at h₁
    exact sub_eq_zero.mp h₁
  nodup := h.nodup hg.below hg.nodup
  below x hx := by
    rcases h.addrs x hx with hx | hx
    · exact (hg.below x hx).trans_le h.next
    · exact hx.2
  hint := hhint
  firstFree := hfree

/-- The lookup of a good map. -/
theorem Good.lookupEntry {n : ℕ} (hg : Good n m) (x : BitVec 32) :
    ∃ p r, lookupEntry m x = .ok ({ m with hint := p }, r) ∧ r.Fits m.entries x ∧
      Live m.entries p ∧ (∀ pre post, r = .between pre post → p = lastAddr pre) :=
  lookupEntry_fits hg.placed hg.hint x

/-- The first entry of a range: an edit that changes nothing of what the entries stand for, after
which every entry lies on one side of `start`. -/
structure StartRange (m : VmMap) (k : Kernel O) (start : BitVec 32) (found : Bool)
    (pre rest : List Entry) (c : Ctx O) (q : Option ℕ) : Prop where
  live : Live m.entries q
  edit : Edit ⟨m.toHeader.saveHint q, k⟩ c m.entries (pre ++ rest)
  head : SameHead (m.toHeader.saveHint q) c.head
  same : ∀ x, mappingAt (pre ++ rest) x = mappingAt m.entries x
  before : ∀ e ∈ pre, e.stop ≤ start
  behind : ∀ e ∈ rest, start ≤ e.start
  keeps : addrs m.entries ⊆ addrs (pre ++ rest)
  between : found = false → q = lastAddr pre

theorem Good.startRange {n : ℕ} (hg : Good n m) {found : Bool}
    (h : startRange L m k start = .ok (found, pre, post, c)) :
    ∃ q, StartRange m k start found pre post c q := by
  obtain ⟨q, r, hr, hfit, hq, hbetween⟩ := hg.lookupEntry start
  rw [AddressMap.startRange, hr] at h
  obtain ⟨_, hok, h⟩ := Fault.bind_eq_ok.mp h
  cases hok
  have hpl := hg.placed
  refine ⟨q, ?_⟩
  cases r with
  | between pre' post' =>
    cases h
    obtain ⟨hl, hpre, hpost⟩ := hfit
    have hed := Edit.refl (⟨m.toHeader.saveHint q, k⟩ : Ctx O) m.entries
    refine ⟨hq, hl ▸ hed, SameHead.refl _, fun x => by rw [hl], hpre, ?_, hl ▸ List.Subset.refl _,
      fun _ => hbetween _ _ rfl⟩
    intro e he
    exact le_iff.mpr (lt_iff.mp (hpost e he)).le
  | found pre' e post' =>
    obtain ⟨⟨front, e', c'⟩, hclip, h⟩ := Fault.bind_eq_ok.mp h
    cases h
    obtain ⟨hl, hx⟩ := hfit
    obtain ⟨hed, hhd, hmap, haddr, hs, hfront⟩ := clipStart_spec hclip hx
    rw [hl] at hpl
    obtain ⟨i, hpre, hie, he, hpost⟩ := laid_append.mp hpl
    have hx₁ := le_iff.mp hx.1
    have hx₂ := lt_iff.mp hx.2
    have hsplit : pre' ++ front ++ e' :: post' = pre' ++ ((front ++ [e']) ++ post') := by simp
    have hed' : Edit ⟨m.toHeader.saveHint q, k⟩ c m.entries
        (pre' ++ ((front ++ [e']) ++ post')) := by
      rw [hl]
      exact (Edit.refl _ pre').append (hed.append (Edit.refl _ post'))
    refine ⟨hq, hsplit ▸ hed', hhd, fun x => ?_, ?_, ?_, ?_, fun h => (nomatch h)⟩
    · rw [hsplit, hl, mappingAt_append, mappingAt_append, hmap, ← mappingAt_append,
        ← mappingAt_append]
      rfl
    · intro f hf
      rcases List.mem_append.mp hf with hf | hf
      · have hhi := (hpre.mem hf).2.2
        unfold Entry.lo at hie
        unfold Entry.hi at hhi
        exact le_iff.mpr (by omega)
      · exact hfront f hf
    · intro f hf
      rcases List.mem_cons.mp hf with rfl | hf
      · exact le_iff.mpr (by rw [hs])
      · have hlo := (hpost.mem hf).1
        unfold Entry.lo Entry.hi at hlo
        exact le_iff.mpr (by omega)
    · rw [hsplit, hl]
      intro x hx
      simp only [addrs_append, addrs_cons, List.mem_append, List.mem_cons] at hx ⊢
      rw [haddr]
      tauto

end AddressMap
