import Mathlib
import NetBsd.Libc.ResComp

/-!
# Names in a message

A compressed name is a row of labels that ends with a NUL or with a pointer to another name. A
pointer goes to a name that lies wholly before the row. The bytes of a name are therefore read at
most once each, `dn_expand` never takes it for a loop, and `dn_find` comes to its end.

## Main definitions

* `At m r p ls e`: from `p` on there is a compressed name with the labels `ls`; its row began at or
  after `r` and ends before `e`

## Main results

* `dnExpand_spec`: `dn_expand` of a name in the message
* `dnFind_some`: what `dn_find` finds is the name that it looked for
-/

namespace ResComp

variable {m m' : ByteMem} {r p e eomorig length fuel cp comp checked : ℕ}
  {l l' dn rest : List Byte} {ls ls' : List (List Byte)}

/-- A compressed name from `p` on, in a row of labels from `r` to `e`. -/
inductive At (m : ByteMem) : ℕ → ℕ → List (List Byte) → ℕ → Prop where
  | root {r p : ℕ} (h : m p = 0) : At m r p [] (p + 1)
  | label {r p e : ℕ} {l : List Byte} {ls : List (List Byte)} (hl : IsLabel l)
      (hn : m p = BitVec.ofNat 8 l.length) (hc : m.Holds (p + 1) l)
      (ht : At m r (p + 1 + l.length) ls e) : At m r p (l :: ls) e
  | ptr {r p q e : ℕ} {ls : List (List Byte)} (hp : m p &&& indirMask = indirMask)
      (hq : offset (m p) (m (p + 1)) = q) (ht : At m q q ls e) (he : e ≤ r) (hne : ls ≠ []) :
      At m r p ls (p + 2)

theorem At.lt (h : At m r p ls e) : p < e := by
  induction h with
  | root h => exact Nat.lt_succ_self _
  | label hl hn hc ht ih => omega
  | ptr => omega

/-- A name depends on the bytes before its end. -/
theorem At.congr (h : At m r p ls e) (hr : r ≤ p) (hm : ∀ a, a < e → m' a = m a) :
    At m' r p ls e := by
  induction h with
  | root h => exact .root (by rw [hm _ (Nat.lt_succ_self _), h])
  | label hl hn hc ht ih =>
    have hlt := ht.lt
    refine .label hl (by rw [hm _ (by omega), hn]) ?_ (ih (by omega) hm)
    intro j hj
    rw [hm _ (by omega)]
    exact hc j hj
  | ptr hp hq ht he hne ih =>
    have hlt := ht.lt
    refine .ptr ?_ ?_ (ih (Nat.le_refl _) fun a ha => hm a (by omega)) he hne
    · rw [hm _ (by omega), hp]
    · rw [hm _ (by omega), hm _ (by omega), hq]

/-- A name can be seen as a row that begins later. -/
theorem At.mono (h : At m r p ls e) {r' : ℕ} (hr : r ≤ r') : At m r' p ls e := by
  induction h with
  | root h => exact .root h
  | label hl hn hc ht ih => exact .label hl hn hc (ih hr)
  | ptr hp hq ht he hne ih => exact .ptr hp hq ht (Nat.le_trans he hr) hne

/-! ## Bytes that say what follows -/

theorem IsLabel.length_pos (hl : IsLabel l) : 0 < l.length := List.length_pos_iff.mpr hl.pos

theorem length_byte (hl : IsLabel l) : BitVec.ofNat 8 l.length ≠ 0 ∧
    BitVec.ofNat 8 l.length &&& indirMask = 0 ∧ (BitVec.ofNat 8 l.length).toNat = l.length := by
  have hpos := hl.length_pos
  have hle := hl.le
  have hall : ∀ n : Fin 64, 0 < n.val → BitVec.ofNat 8 n.val ≠ 0 ∧
      BitVec.ofNat 8 n.val &&& indirMask = 0 ∧ (BitVec.ofNat 8 n.val).toNat = n.val := by
    decide
  exact hall ⟨l.length, Nat.lt_succ_of_le hle⟩ hpos

theorem indir_byte {n : Byte} (h : n &&& indirMask = indirMask) : n ≠ 0 := by
  rintro rfl
  revert h
  decide

theorem indirMask_ne_zero : indirMask ≠ 0 := by decide

/-! ## `dn_expand` -/

/-- A label as `dn_expand` writes it, with a backslash before dots. -/
def dotted (l : List Byte) : List Byte :=
  l.flatMap fun c => if c = dot then [backslash, c] else [c]

/-- What stands in the result before the next label. -/
def sep (dn : List Byte) : List Byte := if dn ≠ [] then dn ++ [dot] else dn

/-- The result of `dn_expand` with these labels behind it. -/
def join (dn : List Byte) (ls : List (List Byte)) : List Byte :=
  ls.foldl (fun dn l => sep dn ++ dotted l) dn

theorem length_le_dotted (l : List Byte) : l.length ≤ (dotted l).length := by
  induction l with
  | nil => exact Nat.le_refl _
  | cons c l ih =>
    rw [dotted, List.flatMap_cons, List.length_append, List.length_cons]
    change l.length + 1 ≤ _ + (dotted l).length
    split <;> simp only [List.length_cons, List.length_nil] <;> omega

theorem length_le_sep (dn : List Byte) : dn.length ≤ (sep dn).length := by
  unfold sep
  split
  · rw [List.length_append]
    exact Nat.le_add_right ..
  · exact Nat.le_refl _

theorem length_le_join (dn : List Byte) (ls : List (List Byte)) :
    dn.length ≤ (join dn ls).length := by
  induction ls generalizing dn with
  | nil => exact Nat.le_refl _
  | cons l ls ih =>
    have hle := ih (sep dn ++ dotted l)
    rw [List.length_append] at hle
    have hsep := length_le_sep dn
    change dn.length ≤ (join (sep dn ++ dotted l) ls).length
    omega

theorem holds_tail {c : Byte} (hc : m.Holds cp (c :: l)) : m.Holds (cp + 1) l := by
  intro j hj
  have hj' := hc (j + 1) (Nat.succ_lt_succ hj)
  rw [← Nat.add_assoc, Nat.add_right_comm] at hj'
  exact hj'

theorem expandLabel_eq (hc : m.Holds cp l) (heom : cp + l.length < eomorig)
    (hlen : dn.length + (dotted l).length < length) :
    expandLabel m eomorig length l.length cp dn = some (cp + l.length, dn ++ dotted l) := by
  induction l generalizing cp dn with
  | nil =>
    rw [dotted, List.flatMap_nil, List.append_nil]
    rfl
  | cons c l ih =>
    have hget : m cp = c := hc 0 (Nat.succ_pos _)
    have htail := holds_tail hc
    have hle := length_le_dotted l
    rw [List.length_cons] at heom
    have hcons : dotted (c :: l) = (if c = dot then [backslash, c] else [c]) ++ dotted l := rfl
    rw [hcons, List.length_append] at hlen
    rw [List.length_cons, expandLabel, hget, hcons]
    by_cases hd : c = dot
    · rw [if_pos hd] at hlen
      simp only [List.length_cons, List.length_nil] at hlen
      have hroom : ¬ (c = dot ∧ dn.length + l.length + 2 ≥ length) := by omega
      simp only [if_neg hroom, if_pos hd]
      rw [if_neg (by omega), ih htail (by omega), List.append_assoc, Nat.add_assoc,
        Nat.add_comm 1]
      rw [List.length_append]
      simp only [List.length_cons, List.length_nil]
      omega
    · rw [if_neg hd] at hlen
      simp only [List.length_cons, List.length_nil] at hlen
      have hroom : ¬ (c = dot ∧ dn.length + l.length + 2 ≥ length) := fun h => hd h.1
      simp only [if_neg hroom, if_neg hd]
      rw [if_neg (by omega), ih htail (by omega), List.append_assoc, Nat.add_assoc,
        Nat.add_comm 1]
      rw [List.length_append]
      simp only [List.length_cons, List.length_nil]
      omega

/-- `checked` counts bytes of rows that lie behind the row that is read. -/
theorem expandLoop_eq (h : At m r p ls e) (hr : r ≤ p) (heom : e ≤ eomorig)
    (hchecked : checked + e + r ≤ eomorig + p) (hfuel : eomorig < fuel + checked)
    (hlen : (join dn ls).length < length) (len : Option ℕ) (hcomp : len = none → comp ≤ p) :
    expandLoop m eomorig comp length fuel p dn len checked =
      some (join dn ls, len.getD (e - comp)) := by
  induction h generalizing fuel dn len checked with
  | root h =>
    obtain ⟨fuel, rfl⟩ : ∃ f, fuel = f + 1 := ⟨fuel - 1, by omega⟩
    simp only [expandLoop, h, if_true]
    rfl
  | @label r p e l ls hl hn hc ht ih =>
    have hlt := ht.lt
    have hpos := hl.length_pos
    obtain ⟨hne, hmask, hnat⟩ := length_byte hl
    obtain ⟨fuel, rfl⟩ : ∃ f, fuel = f + 1 := ⟨fuel - 1, by omega⟩
    have hjoin : (sep dn).length + (dotted l).length < length := by
      have hle := length_le_join (sep dn ++ dotted l) ls
      rw [List.length_append] at hle
      change (join (sep dn ++ dotted l) ls).length < length at hlen
      omega
    have hle := length_le_dotted l
    have hsep := length_le_sep dn
    rw [expandLoop]
    simp only [hn, hne, hmask, hnat, if_true, if_false]
    rw [if_neg (by omega)]
    change (if (sep dn).length + l.length ≥ length then none else _) = _
    rw [if_neg (by omega)]
    have hlabel := expandLabel_eq hc (show p + 1 + l.length < eomorig by omega) hjoin
    rw [sep] at hlabel
    rw [hlabel]
    exact ih (by omega) heom (by omega) (by omega) hlen len fun h => by
      have hle := hcomp h
      omega
  | @ptr r p q e ls hp hq ht he hne ih =>
    have hlt := ht.lt
    have hzero := indir_byte hp
    obtain ⟨fuel, rfl⟩ : ∃ f, fuel = f + 1 := ⟨fuel - 1, by omega⟩
    rw [expandLoop]
    simp only [hzero, hp, indirMask_ne_zero, if_true, if_false, hq]
    rw [if_neg (by omega), if_neg (by omega),
      ih (Nat.le_refl _) (by omega) (by omega) (by omega) hlen (some (len.getD (p + 1 - comp + 1)))
        (fun h => by cases h), Option.getD_some]
    cases len with
    | none =>
      have hle := hcomp rfl
      have hused : p + 1 - comp + 1 = p + 2 - comp := by omega
      rw [Option.getD_none, Option.getD_none, hused]
    | some n => rfl

theorem text_cons (l : List Byte) (ls : List (List Byte)) :
    ∃ rest, text (l :: ls) = l.flatMap escape ++ rest ∧ (ls = [] ∧ rest = [] ∨
      ls ≠ [] ∧ rest = dot :: text ls) := by
  cases ls with
  | nil => exact ⟨[], (List.append_nil _).symm, .inl ⟨rfl, rfl⟩⟩
  | cons l' ls => exact ⟨dot :: text (l' :: ls), rfl, .inr ⟨nofun, rfl⟩⟩

theorem dotted_eq (hb : backslash ∉ l) : dotted l = l.flatMap escape := by
  induction l with
  | nil => rfl
  | cons c l ih =>
    have hne : c ≠ backslash := fun h => hb (h ▸ List.mem_cons_self)
    have htail := ih fun h => hb (List.mem_cons_of_mem _ h)
    rw [dotted, List.flatMap_cons, List.flatMap_cons, escape, ← htail]
    simp only [hne, or_false]
    rfl

theorem dotted_ne_nil (hl : IsLabel l) : dotted l ≠ [] := by
  intro h
  have hle := length_le_dotted l
  have hpos := hl.length_pos
  rw [h, List.length_nil] at hle
  omega

/-- A name without backslashes in its labels comes out as it is written in text. -/
theorem join_eq_text (hb : ∀ l ∈ ls, backslash ∉ l) (hl : ∀ l ∈ ls, IsLabel l) :
    join [] ls = text ls := by
  have hmore : ∀ ls : List (List Byte), (∀ l ∈ ls, backslash ∉ l) → (∀ l ∈ ls, IsLabel l) →
      ∀ dn, dn ≠ [] → join dn ls = if ls = [] then dn else dn ++ dot :: text ls := by
    intro ls
    induction ls with
    | nil => exact fun _ _ _ _ => rfl
    | cons l ls ih =>
      intro hb hl dn hdn
      obtain ⟨rest, htext, hrest⟩ := text_cons l ls
      have hstep := ih (fun l hl => hb l (List.mem_cons_of_mem _ hl))
        (fun l h => hl l (List.mem_cons_of_mem _ h)) (sep dn ++ dotted l)
        (List.append_ne_nil_of_right_ne_nil _ (dotted_ne_nil (hl l List.mem_cons_self)))
      change join (sep dn ++ dotted l) ls = _
      rw [hstep, if_neg (List.cons_ne_nil l ls), htext, sep, if_pos hdn,
        dotted_eq (hb l List.mem_cons_self)]
      obtain ⟨rfl, rfl⟩ | ⟨hne, rfl⟩ := hrest
      · simp
      · simp [hne]
  cases ls with
  | nil => rfl
  | cons l ls =>
    obtain ⟨rest, htext, hrest⟩ := text_cons l ls
    have hstep := hmore ls (fun l hl => hb l (List.mem_cons_of_mem _ hl))
      (fun l h => hl l (List.mem_cons_of_mem _ h)) (dotted l)
      (dotted_ne_nil (hl l List.mem_cons_self))
    change join (dotted l) ls = _
    rw [hstep, htext, dotted_eq (hb l List.mem_cons_self)]
    obtain ⟨rfl, rfl⟩ | ⟨hne, rfl⟩ := hrest
    · simp
    · simp [hne]

/-- `dn_expand` gives the name, and the size of its row. -/
theorem dnExpand_spec (h : At m p p ls e) (heom : e ≤ eomorig) (hl : ∀ l ∈ ls, IsLabel l)
    (hb : ∀ l ∈ ls, backslash ∉ l) (hlen : (text ls).length < length) :
    dnExpand m eomorig p length = some (text ls, e - p) := by
  rw [← join_eq_text hb hl] at hlen ⊢
  exact expandLoop_eq h (Nat.le_refl _) heom (by omega) (by omega) hlen none fun _ => Nat.le_refl _

/-! ## `dn_find` -/

/-- The first character of what stands for a character of a label. -/
theorem escape_head (c : Byte) (hc : c ≠ 0) (rest : List Byte) :
    (escape c ++ rest).headD 0 ≠ dot ∧ (escape c ++ rest).headD 0 ≠ 0 ∧
      (if (escape c ++ rest).headD 0 = backslash then (escape c ++ rest).tail
        else escape c ++ rest) = c :: rest := by
  by_cases he : c = dot ∨ c = backslash
  · rw [escape, if_pos he]
    exact ⟨(by decide : backslash ≠ dot), (by decide : backslash ≠ 0), if_pos rfl⟩
  · rw [escape, if_neg he]
    exact ⟨fun h => he (.inl h), hc, if_neg fun h => he (.inr h)⟩

/-- A label of the message is compared with the beginning of one in text. -/
theorem matchLabel_eq (hc : m.Holds cp l) (h0 : 0 ∉ l) (h0' : 0 ∉ l')
    (hrest : rest.headD 0 = 0 ∨ rest.headD 0 = dot) :
    matchLabel m l.length (l'.flatMap escape ++ rest) cp =
      if l <+: l' then some ((l'.drop l.length).flatMap escape ++ rest, cp + l.length) else none := by
  induction l generalizing l' cp with
  | nil =>
    rw [if_pos List.nil_prefix]
    rfl
  | cons c l ih =>
    have hget : m cp = c := hc 0 (Nat.succ_pos _)
    have hc0 : c ≠ 0 := fun h => h0 (h ▸ List.mem_cons_self)
    have htail := holds_tail hc
    rw [List.length_cons, matchLabel]
    cases l' with
    | nil =>
      rw [List.flatMap_nil, List.nil_append, if_neg (by simp : ¬ (c :: l) <+: [])]
      obtain hz | hd := hrest
      · have hnb : (0 : Byte) ≠ backslash := by decide
        have hnd : (0 : Byte) ≠ dot := by decide
        simp only [hz, hnb, hnd, if_false, hget]
        rw [if_pos (Ne.symm hc0)]
      · rw [if_pos hd]
    | cons c' l' =>
      have hc0' : c' ≠ 0 := fun h => h0' (h ▸ List.mem_cons_self)
      obtain ⟨hdot, -, hskip⟩ := escape_head c' hc0' (l'.flatMap escape ++ rest)
      rw [List.flatMap_cons, List.append_assoc, if_neg hdot]
      simp only [hskip, List.headD_cons, List.tail_cons, hget]
      by_cases hcc : c' = c
      · subst hcc
        have ih := ih htail (fun h => h0 (List.mem_cons_of_mem _ h))
          fun h : 0 ∈ l' => h0' (List.mem_cons_of_mem _ h)
        rw [if_neg (by simp), ih]
        simp only [List.cons_prefix_cons, true_and, List.drop_succ_cons, Nat.add_assoc,
          Nat.add_comm 1]
      · rw [if_pos hcc, if_neg]
        rw [List.cons_prefix_cons]
        exact fun h => hcc h.1.symm

theorem text_head (hl : ∀ l ∈ ls, IsLabel l) (hne : ls ≠ []) :
    (text ls).headD 0 ≠ 0 := by
  cases ls with
  | nil => exact absurd rfl hne
  | cons l ls =>
    have hlabel := hl l List.mem_cons_self
    obtain ⟨rest, htext, -⟩ := text_cons l ls
    cases l with
    | nil => exact absurd rfl hlabel.pos
    | cons c l =>
      have hc : c ≠ 0 := fun h => hlabel.nul (h ▸ List.mem_cons_self)
      rw [htext, List.flatMap_cons, List.append_assoc]
      exact (escape_head c hc _).2.1

theorem At.first (h : At m r p ls e) : m p = 0 ∧ ls = [] ∨ m p ≠ 0 ∧ ls ≠ [] := by
  cases h with
  | root h => exact .inl ⟨h, rfl⟩
  | label hl hn hc ht =>
    rw [hn]
    exact .inr ⟨(length_byte hl).1, nofun⟩
  | ptr hp hq ht he hne => exact .inr ⟨indir_byte hp, hne⟩

/-- The search of a name in the message tells whether it is the name in text. -/
theorem matchAt_eq (h : At m r p ls e) (hr : r ≤ p) (hl : ∀ l ∈ ls', IsLabel l) (hne : ls' ≠ [])
    (hfuel : e + r < fuel + p) :
    matchAt m fuel (text ls') p = if ls' = ls then .found else .next := by
  induction h generalizing fuel ls' with
  | @root r p h =>
    obtain ⟨fuel, rfl⟩ : ∃ f, fuel = f + 1 := ⟨fuel - 1, by omega⟩
    simp only [matchAt, h, if_true]
    rw [if_neg (text_head hl hne), if_neg hne]
  | @label r p e l ls hl₀ hn hc ht ih =>
    have hlt := ht.lt
    have hpos := hl₀.length_pos
    obtain ⟨hn0, hmask, hnat⟩ := length_byte hl₀
    obtain ⟨fuel, rfl⟩ : ∃ f, fuel = f + 1 := ⟨fuel - 1, by omega⟩
    cases ls' with
    | nil => exact absurd rfl hne
    | cons l' ls' =>
      have hl' := hl l' List.mem_cons_self
      obtain ⟨rest, htext, hrest⟩ := text_cons l' ls'
      have hhead : rest.headD 0 = 0 ∨ rest.headD 0 = dot := by
        obtain ⟨-, rfl⟩ | ⟨-, rfl⟩ := hrest
        · exact .inl rfl
        · exact .inr rfl
      have hmatch := matchLabel_eq hc hl₀.nul hl'.nul hhead
      rw [htext, matchAt]
      simp only [hn, hn0, hmask, hnat, if_true, if_false, hmatch]
      by_cases hpre : l <+: l'
      · obtain ⟨t, rfl⟩ := hpre
        rw [if_pos (List.prefix_append l t)]
        simp only [List.drop_left]
        cases t with
        | nil =>
          rw [List.append_nil, List.flatMap_nil, List.nil_append]
          obtain ⟨rfl, rfl⟩ | ⟨hmore, rfl⟩ := hrest
          · -- the text is at its end, so the message has to be at its end too
            have hd : (0 : Byte) ≠ dot := by decide
            simp only [List.headD_nil, hd, true_and, if_false]
            obtain hz | ⟨hz, hls⟩ := ht.first
            · rw [if_pos hz.1, if_pos (by rw [hz.2])]
            · rw [if_neg hz, if_neg]
              intro heq
              exact hls (List.cons.inj heq).2.symm
          · have hd : dot ≠ 0 := by decide
            simp only [List.headD_cons, hd, false_and, if_true, if_false, List.tail_cons]
            rw [ih (by omega) (fun l h => hl l (List.mem_cons_of_mem _ h)) hmore (by omega)]
            simp only [List.cons.injEq, true_and]
        | cons c t =>
          have hc0 : c ≠ 0 := fun h => hl'.nul (by rw [h]; simp)
          obtain ⟨hdot, hzero, -⟩ := escape_head c hc0 (t.flatMap escape ++ rest)
          rw [List.flatMap_cons, List.append_assoc, if_neg fun h => hzero h.1, if_neg hdot, if_neg]
          simp
      · rw [if_neg hpre, if_neg]
        rintro heq
        cases heq
        exact hpre List.prefix_rfl
  | @ptr r p q e ls hp hq ht he hne' ih =>
    have hlt := ht.lt
    have hzero := indir_byte hp
    obtain ⟨fuel, rfl⟩ : ∃ f, fuel = f + 1 := ⟨fuel - 1, by omega⟩
    rw [matchAt]
    simp only [hzero, hp, indirMask_ne_zero, if_true, if_false, hq]
    exact ih (Nat.le_refl _) hl hne (by omega)

/-- Every offset in the list is that of a name that ends at or before `e`. -/
def Valid (m : ByteMem) (e : ℕ) (dnptrs : List ℕ) : Prop :=
  ∀ q ∈ dnptrs, ∃ ls e', ls ≠ [] ∧ At m q q ls e' ∧ e' ≤ e

variable {old dnptrs : List ℕ} {q : ℕ}

theorem Valid.mono (h : Valid m e old) {e' : ℕ} (he : e ≤ e') : Valid m e' old := by
  intro q hq
  obtain ⟨ls, e₁, hne, hat, hle⟩ := h q hq
  exact ⟨ls, e₁, hne, hat, Nat.le_trans hle he⟩

theorem Valid.congr (h : Valid m e old) (hm : ∀ a, a < e → m' a = m a) : Valid m' e old := by
  intro q hq
  obtain ⟨ls, e₁, hne, hat, hle⟩ := h q hq
  exact ⟨ls, e₁, hne, hat.congr (Nat.le_refl _) fun a ha => hm a (by omega), hle⟩

theorem dnFind_cons (h : At m q q ls' e) (hl : ∀ l ∈ ls, IsLabel l) (hne : ls ≠ [])
    (hfuel : e < fuel) :
    dnFind m fuel (text ls) (q :: old) =
      if ls = ls' then some q else dnFind m fuel (text ls) old := by
  rw [dnFind, matchAt_eq h (Nat.le_refl _) hl hne (by omega)]
  split_ifs <;> rfl

/-- What `dn_find` finds is the name that it looked for. -/
theorem dnFind_some (hv : Valid m e old) (hl : ∀ l ∈ ls, IsLabel l) (hne : ls ≠ [])
    (hfuel : e < fuel) (h : dnFind m fuel (text ls) old = some q) :
    ∃ e', At m q q ls e' ∧ e' ≤ e := by
  induction old with
  | nil => exact nomatch h
  | cons p old ih =>
    obtain ⟨ls', e', -, hat, hle⟩ := hv p List.mem_cons_self
    rw [dnFind_cons hat hl hne (by omega)] at h
    split_ifs at h with heq
    · obtain rfl := Option.some.inj h
      rw [heq]
      exact ⟨e', hat, hle⟩
    · exact ih (fun q hq => hv q (List.mem_cons_of_mem _ hq)) h

/-- The search depends on the bytes before the end of the names. -/
theorem dnFind_congr (hv : Valid m e old) (hl : ∀ l ∈ ls, IsLabel l) (hne : ls ≠ [])
    (hfuel : e < fuel) (hm : ∀ a, a < e → m' a = m a) :
    dnFind m' fuel (text ls) old = dnFind m fuel (text ls) old := by
  induction old with
  | nil => rfl
  | cons p old ih =>
    obtain ⟨ls', e', -, hat, hle⟩ := hv p List.mem_cons_self
    have hat' := hat.congr (Nat.le_refl _) fun a ha => hm a (by omega)
    rw [dnFind_cons hat hl hne (by omega), dnFind_cons hat' hl hne (by omega),
      ih fun q hq => hv q (List.mem_cons_of_mem _ hq)]

end ResComp
