import Mathlib.Data.List.Perm.Basic
import Mathlib.Data.List.Nodup

/-!
# Chained hash tables

A table of chains, an entry going to the chain its key leaves as remainder by the number of
chains. A new entry goes to the front of its chain; rehashing moves the entries one by one to a
table of another size.

## Main definitions

* `Table`, `put`, `find`, `del`, `rehash`
* `Hashed t`: every entry is in the chain of its key

## Main results

* `find_eq_some_iff`: a lookup finds the entry of a key, when keys are unique
* `put_perm`, `del_perm`, `rehash_perm`: what the operations do to the entries
-/

namespace Chained

variable {α : Type} (key : α → ℕ)

/-- The chains of a table. -/
abbrev Table (α : Type) := List (List α)

/-- The chain of a key. -/
def chain (t : Table α) (k : ℕ) : List α := t.getD (k % t.length) []

/-- The first entry of a key in its chain. -/
def find (t : Table α) (k : ℕ) : Option α := (chain t k).find? (key · = k)

/-- A new entry, at the front of its chain. -/
def put (t : Table α) (a : α) : Table α := t.modify (key a % t.length) (a :: ·)

/-- The table without the first entry of a key. -/
def del (t : Table α) (k : ℕ) : Table α := t.modify (k % t.length) (·.eraseP (key · = k))

/-- The entries of a table moved to one with `n` chains, the last chain first. -/
def rehash (t : Table α) (n : ℕ) : Table α :=
  t.reverse.flatten.foldl (put key) (List.replicate n [])

/-- Every entry is in the chain of its key. -/
def Hashed (t : Table α) : Prop :=
  ∀ i c, t[i]? = some c → ∀ a ∈ c, key a % t.length = i

variable {key} {t : Table α} {a : α} {k : ℕ}

theorem length_put : (put key t a).length = t.length := List.length_modify ..

theorem length_del : (del key t k).length = t.length := List.length_modify ..

theorem chain_get (h : 0 < t.length) : t[k % t.length]? = some (chain t k) := by
  have hlt := Nat.mod_lt k h
  simp [chain, List.getD, List.getElem?_eq_getElem hlt]

/-- A chain and the other entries of the table. -/
theorem flatten_split {i : ℕ} {c : List α} (h : t[i]? = some c) :
    ∃ l r, t = l ++ c :: r ∧ l.length = i := by
  obtain ⟨hlt, rfl⟩ := List.getElem?_eq_some_iff.mp h
  refine ⟨t.take i, t.drop (i + 1), ?_, by simp; omega⟩
  rw [List.getElem_cons_drop hlt, List.take_append_drop]

theorem modify_split {l r : Table α} {c : List α} (f : List α → List α) :
    (l ++ c :: r).modify l.length f = l ++ f c :: r := by
  rw [List.modify_eq_take_cons_drop (by simp)]
  simp

/-- **A new entry** is the only change to the entries. -/
theorem put_perm (h : 0 < t.length) : (put key t a).flatten.Perm (a :: t.flatten) := by
  obtain ⟨l, r, ht, hl⟩ := flatten_split (chain_get (k := key a) h)
  have hput : put key t a = l ++ (a :: chain t (key a)) :: r := by
    rw [put, ← hl]
    conv_lhs => rw [ht]
    exact modify_split _
  rw [hput]
  conv_rhs => rw [ht]
  simp only [List.flatten_append, List.flatten_cons, List.cons_append]
  exact List.perm_middle

theorem hashed_modify {f : List α → List α} {i : ℕ} (h : Hashed key t)
    (hf : ∀ c, t[i]? = some c → ∀ b ∈ f c, b ∈ c ∨ key b % t.length = i) :
    Hashed key (t.modify i f) := by
  intro j c hc b hb
  rw [List.length_modify]
  rw [List.getElem?_modify] at hc
  by_cases hij : i = j
  · subst hij
    cases ht : t[i]? with
    | none => rw [ht] at hc; simp at hc
    | some c₀ =>
      rw [ht] at hc
      obtain rfl : f c₀ = c := by simpa using hc
      rcases hf c₀ ht b hb with hmem | hk
      · exact h i c₀ ht b hmem
      · exact hk
  · have hc' : t[j]? = some c := by simpa [hij] using hc
    exact h j c hc' b hb

theorem hashed_put (h : Hashed key t) : Hashed key (put key t a) :=
  hashed_modify h fun c _ b hb => by
    rcases List.mem_cons.mp hb with rfl | hb
    · exact .inr rfl
    · exact .inl hb

theorem hashed_del (h : Hashed key t) : Hashed key (del key t k) :=
  hashed_modify h fun _ _ _ hb => .inl (List.mem_of_mem_eraseP hb)

/-- An entry of a hashed table is in the chain of its key. -/
theorem mem_chain (h : Hashed key t) (ha : a ∈ t.flatten) : a ∈ chain t (key a) := by
  obtain ⟨c, hc, hac⟩ := List.mem_flatten.mp ha
  obtain ⟨i, hi⟩ := List.mem_iff_getElem?.mp hc
  have hk := h i c hi a hac
  rw [chain, List.getD, hk, hi]
  exact hac

theorem mem_flatten_of_chain (ha : a ∈ chain t k) : a ∈ t.flatten := by
  unfold chain at ha
  rw [List.getD] at ha
  cases ht : t[k % t.length]? with
  | none => rw [ht] at ha; cases ha
  | some c =>
    rw [ht] at ha
    exact List.mem_flatten.mpr ⟨c, List.mem_of_getElem? ht, ha⟩

theorem find_none_iff (h : Hashed key t) :
    find key t k = none ↔ ∀ a ∈ t.flatten, key a ≠ k := by
  rw [find, List.find?_eq_none]
  constructor
  · rintro hc a ha rfl
    simpa using hc a (mem_chain h ha)
  · intro hf a ha
    simpa using hf a (mem_flatten_of_chain ha)

/-- **A lookup finds the entry of a key**, when no two entries have one key. -/
theorem find_eq_some_iff (h : Hashed key t)
    (huniq : ∀ a ∈ t.flatten, ∀ b ∈ t.flatten, key a = key b → a = b) :
    find key t k = some a ↔ a ∈ t.flatten ∧ key a = k := by
  constructor
  · intro hf
    refine ⟨mem_flatten_of_chain (List.mem_of_find?_eq_some hf), ?_⟩
    simpa using List.find?_some hf
  · rintro ⟨ha, rfl⟩
    cases hf : find key t (key a) with
    | none => exact absurd rfl ((find_none_iff h).mp hf a ha)
    | some b =>
      have hb : key b = key a := by simpa using List.find?_some hf
      have hbt := mem_flatten_of_chain (List.mem_of_find?_eq_some hf)
      rw [huniq b hbt a ha hb]

/-- **A deletion** takes the entry a lookup finds, and no other. -/
theorem del_perm (hf : find key t k = some a) : t.flatten.Perm (a :: (del key t k).flatten) := by
  have hpos : 0 < t.length := by
    rcases Nat.eq_zero_or_pos t.length with h | h
    · obtain rfl := List.length_eq_zero_iff.mp h
      simp [find, chain] at hf
    · exact h
  obtain ⟨l, r, ht, hl⟩ := flatten_split (chain_get (k := k) hpos)
  have hdel : del key t k = l ++ (chain t k).eraseP (key · = k) :: r := by
    rw [del, ← hl]
    conv_lhs => rw [ht]
    exact modify_split _
  obtain ⟨hk, l', r', hchain, hl'⟩ := List.find?_eq_some_iff_append.mp hf
  have herase : (chain t k).eraseP (key · = k) = l' ++ r' := by
    rw [hchain, List.eraseP_append_right _ (by simpa using hl')]
    simp only [List.eraseP_cons, hk, cond_true]
  rw [hdel, herase]
  conv_lhs => rw [ht]
  rw [hchain]
  simp only [List.flatten_append, List.flatten_cons, List.append_assoc, List.cons_append]
  rw [← List.append_assoc, ← List.append_assoc]
  exact List.perm_middle

theorem hashed_replicate (n : ℕ) : Hashed key (List.replicate n []) := by
  intro i c hc a ha
  rw [List.getElem?_replicate] at hc
  split at hc
  · obtain rfl := Option.some.inj hc
    cases ha
  · cases hc

variable (key) in
theorem foldl_put (l : List α) (ht : 0 < t.length) (h : Hashed key t) :
    (l.foldl (put key) t).flatten.Perm (l ++ t.flatten) ∧
      (l.foldl (put key) t).length = t.length ∧ Hashed key (l.foldl (put key) t) := by
  induction l generalizing t with
  | nil => exact ⟨List.Perm.refl _, rfl, h⟩
  | cons a l ih =>
    obtain ⟨hp, hlen, hh⟩ := ih (t := put key t a) (by rwa [length_put]) (hashed_put h)
    refine ⟨hp.trans ?_, hlen.trans length_put, hh⟩
    exact ((put_perm ht).append_left l).trans List.perm_middle

variable (key) in
/-- **Rehashing keeps the entries** and puts each into the chain of its key. -/
theorem rehash_perm {n : ℕ} (hn : 0 < n) :
    (rehash key t n).flatten.Perm t.flatten ∧ (rehash key t n).length = n ∧
      Hashed key (rehash key t n) := by
  have hempty : (List.replicate n ([] : List α)).flatten = [] := by simp
  obtain ⟨hp, hlen, hh⟩ := foldl_put key (t := List.replicate n []) t.reverse.flatten
    (by simpa using hn) (hashed_replicate n)
  refine ⟨?_, hlen.trans (List.length_replicate ..), hh⟩
  rw [hempty, List.append_nil] at hp
  exact hp.trans (List.reverse_perm t).flatten

end Chained
