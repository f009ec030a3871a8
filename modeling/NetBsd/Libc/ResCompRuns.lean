import Mathlib
import NetBsd.Libc.ResCompNames

/-!
# Compressed names come back

What `dn_comp` writes is a compressed name with the labels that it was given, and every offset that
it saves is that of a name. The names before stay as they are, because `dn_comp` writes at the end of
the message. `dn_expand` then gives every name that was put into a message.

This takes offsets below 2 ^ 14 in pointers, and labels without backslashes: `dn_expand` writes no
backslash before a backslash. The return of `dn_comp` for lack of room for a pointer leaves the
offsets that were saved in the list.

## Main definitions

* `Fits`: a name is compressed with a pointer that has room and can be expressed
* `Inv`: the names of a message

## Main results

* `dnComp_spec`: what `dn_comp` does
* `reached_expand`: names come back, and a call that fails leaves the list as it was
-/

namespace ResComp

variable {m m' m₀ : ByteMem} {r p e q eob cp comp cap fuel : ℕ}
  {l rest : List Byte} {ls : List (List Byte)} {old dnptrs : List ℕ}

/-! ## The bytes that `dn_comp` writes -/

theorem put8_below {a b : ℕ} (h : a < b) (v : Byte) : m.put8 b v a = m a :=
  ByteMem.put8_of_ne (by omega) v

/-- The copy of a label: its characters are in the message if they have room. -/
theorem copyLabel_spec (eob : ℕ) (m : ByteMem) (cp : ℕ) (h0 : 0 ∉ l)
    (hrest : rest = [] ∨ ∃ t, rest = dot :: t) :
    ∃ m', copyLabel eob m cp (l.flatMap escape ++ rest) =
        (m', if cp + l.length ≤ eob ∨ l = [] then some (cp + l.length, rest.tail) else none) ∧
      (∀ a, a < cp → m' a = m a) ∧ (cp + l.length ≤ eob → m'.Holds cp l) := by
  induction l generalizing m cp with
  | nil =>
    refine ⟨m, ?_, fun _ _ => rfl, fun _ j hj => absurd hj j.not_lt_zero⟩
    rw [if_pos (.inr rfl), List.flatMap_nil, List.nil_append]
    obtain rfl | ⟨t, rfl⟩ := hrest
    · rfl
    · rw [copyLabel.eq_def]
      rfl
  | cons c l ih =>
    have hstep : copyLabel eob m cp ((c :: l).flatMap escape ++ rest) =
        if cp ≥ eob then (m, none)
        else copyLabel eob (m.put8 cp c) (cp + 1) (l.flatMap escape ++ rest) := by
      rw [List.flatMap_cons, List.append_assoc, escape]
      split
      · have hb : backslash ≠ dot := by decide
        rw [copyLabel.eq_def]
        simp only [List.cons_append, List.nil_append, hb, if_true, if_false]
      · rename_i h
        rw [List.singleton_append, copyLabel.eq_def]
        simp only [if_neg fun hd => h (.inl hd), if_neg fun hb => h (.inr hb)]
    rw [hstep, List.length_cons]
    by_cases hroom : cp ≥ eob
    · refine ⟨m, ?_, fun _ _ => rfl, fun h => absurd h (by omega)⟩
      rw [if_pos hroom, if_neg]
      rintro (h | h)
      · omega
      · cases h
    · obtain ⟨m', hcopy, hframe, hholds⟩ :=
        ih (m.put8 cp c) (cp + 1) fun h => h0 (List.mem_cons_of_mem _ h)
      refine ⟨m', ?_, ?_, ?_⟩
      · rw [if_neg hroom, hcopy]
        have hend : cp + 1 + l.length = cp + (l.length + 1) := by omega
        rw [hend]
        by_cases hfit : cp + (l.length + 1) ≤ eob
        · rw [if_pos (.inl hfit), if_pos (.inl hfit)]
        · rw [if_neg, if_neg]
          · rintro (h | h)
            · exact hfit h
            · cases h
          · rintro (h | rfl)
            · exact hfit h
            · exact hfit (Nat.lt_of_not_le hroom)
      · intro a ha
        rw [hframe a (by omega), put8_below ha]
      · intro hle j hj
        cases j with
        | zero => rw [Nat.add_zero, hframe cp (Nat.lt_succ_self _), ByteMem.put8_same]; rfl
        | succ j =>
          have hj' := hholds (by omega) j (Nat.lt_of_succ_lt_succ hj)
          rw [Nat.add_right_comm, Nat.add_assoc] at hj'
          exact hj'

/-- The two bytes of a pointer. -/
theorem pointer_bytes (hq : q < 2 ^ 14) :
    (BitVec.ofNat 8 (q / 256) ||| indirMask) &&& indirMask = indirMask ∧
      offset (BitVec.ofNat 8 (q / 256) ||| indirMask) (BitVec.ofNat 8 (q % 256)) = q := by
  have hall : ∀ k : Fin 64, (BitVec.ofNat 8 k.val ||| indirMask) &&& indirMask = indirMask ∧
      ((BitVec.ofNat 8 k.val ||| indirMask) &&& 0x3f#8).toNat = k.val := by
    decide
  obtain ⟨hmask, hhigh⟩ := hall ⟨q / 256, by omega⟩
  refine ⟨hmask, ?_⟩
  rw [offset, hhigh, BitVec.toNat_ofNat, Nat.mod_mod]
  exact Nat.div_add_mod' q 256

/-! ## `dn_comp` -/

/-- The bytes of the labels. -/
def wire (ls : List (List Byte)) : ℕ := (ls.map fun l => l.length + 1).sum

/-- The search of `dn_comp` finds the name `suf` at `q`, and nothing for the names that begin before. -/
def FirstFound (m : ByteMem) (comp : ℕ) (old : List ℕ) (pre suf : List (List Byte)) (q : ℕ) : Prop :=
  suf ≠ [] ∧ dnFind m (comp + 1) (text suf) old = some q ∧
    ∀ a b, pre = a ++ b → b ≠ [] → dnFind m (comp + 1) (text (b ++ suf)) old = none

/-- Where the labels before what is found leave room for a pointer, a pointer can tell the offset;
where only they have room, `dn_comp` has saved nothing. -/
def Fits (m : ByteMem) (comp length : ℕ) (old : List ℕ) (cap : ℕ) (labels : List (List Byte)) :
    Prop :=
  ∀ pre suf q, labels = pre ++ suf → FirstFound m comp old pre suf q →
    (wire pre + 2 ≤ length → q < 2 ^ 14) ∧
    (wire pre ≤ length → length < wire pre + 2 → pre = [] ∨ cap ≤ old.length)

theorem wire_snoc (pre : List (List Byte)) (l : List Byte) :
    wire (pre ++ [l]) = wire pre + (l.length + 1) := by
  rw [wire, List.map_append, List.sum_append]
  rfl

theorem text_ne_nil (hl : ∀ l ∈ ls, IsLabel l) (hne : ls ≠ []) : text ls ≠ [] := by
  intro h
  have hhead := text_head hl hne
  rw [h] at hhead
  exact hhead rfl

theorem length_le_flatMap (l : List Byte) : l.length ≤ (l.flatMap escape).length := by
  induction l with
  | nil => exact Nat.le_refl _
  | cons c l ih =>
    rw [List.flatMap_cons, List.length_append, List.length_cons, escape]
    split <;> simp only [List.length_cons, List.length_nil] <;> omega

theorem length_text_lt (hl : IsLabel l) : (text ls).length < (text (l :: ls)).length := by
  obtain ⟨rest, htext, hrest⟩ := text_cons l ls
  have hflat := length_le_flatMap l
  have hpos := hl.length_pos
  rw [htext, List.length_append]
  obtain ⟨rfl, rfl⟩ | ⟨-, rfl⟩ := hrest
  · change 0 < _
    omega
  · rw [List.length_cons]
    omega

/-- What the loop of `dn_comp` leaves: the labels `ls` from `cp` on, and names at the offsets that it
saved. -/
structure Compressed (old : List ℕ) (comp cp : ℕ) (m : ByteMem) (ls : List (List Byte))
    (dnptrs : List ℕ) (r : Comp) : Prop where
  frame : ∀ a, a < cp → r.m a = m a
  failed : r.ret = none → r.dnptrs = old
  ret : ∀ n, r.ret = some n → At r.m comp cp ls (comp + n) ∧
    ∀ q ∈ r.dnptrs, q ∈ dnptrs ∨ ∃ ls', ls' ≠ [] ∧ At r.m q q ls' (comp + n)

theorem compEnd_spec (hcp : comp ≤ cp) :
    Compressed old comp cp m [] dnptrs (compEnd old comp eob m cp dnptrs) := by
  unfold compEnd
  split
  · exact ⟨fun _ _ => rfl, fun _ => rfl, fun n h => nomatch h⟩
  · refine ⟨fun a ha => put8_below ha _, nofun, fun n h => ?_⟩
    obtain rfl := Option.some.inj h
    refine ⟨?_, fun q hq => .inl hq⟩
    rw [show comp + (cp + 1 - comp) = cp + 1 by omega]
    exact .root (ByteMem.put8_same ..)

theorem compPtr_spec (hat : At m q q ls e) (he : e ≤ comp) (hne : ls ≠ []) (hq : q < 2 ^ 14)
    (hcp : comp ≤ cp) :
    Compressed old comp cp m ls dnptrs ⟨some (cp + 2 - comp),
      (m.put8 cp (BitVec.ofNat 8 (q / 256) ||| indirMask)).put8 (cp + 1)
        (BitVec.ofNat 8 (q % 256)), dnptrs⟩ := by
  generalize hm' : (m.put8 cp (BitVec.ofNat 8 (q / 256) ||| indirMask)).put8 (cp + 1)
    (BitVec.ofNat 8 (q % 256)) = m'
  have hlt := hat.lt
  have hframe : ∀ a, a < cp → m' a = m a := by
    intro a ha
    rw [← hm', put8_below (by omega), put8_below ha]
  obtain ⟨hmask, hoff⟩ := pointer_bytes hq
  have hfirst : m' cp = BitVec.ofNat 8 (q / 256) ||| indirMask := by
    rw [← hm', put8_below (Nat.lt_succ_self cp), ByteMem.put8_same]
  have hsecond : m' (cp + 1) = BitVec.ofNat 8 (q % 256) := by
    rw [← hm', ByteMem.put8_same]
  refine ⟨hframe, nofun, fun n h => ⟨?_, fun q hq => .inl hq⟩⟩
  have hend : comp + n = cp + 2 := by
    have hret := Option.some.inj h
    omega
  change At m' comp cp ls (comp + n)
  rw [hend]
  refine .ptr ?_ ?_ (hat.congr (Nat.le_refl _) fun a ha => hframe a (by omega)) he hne
  · rw [hfirst, hmask]
  · rw [hfirst, hsecond, hoff]

theorem compLoop_spec {pre : List (List Byte)} (hl : ∀ l ∈ ls, IsLabel l) (hv : Valid m₀ comp old)
    (hm : ∀ a, a < comp → m a = m₀ a)
    (hnone : ∀ a b, pre = a ++ b → b ≠ [] → dnFind m₀ (comp + 1) (text (b ++ ls)) old = none)
    (hfits : Fits m₀ comp length old cap (pre ++ ls)) (hcp : cp = comp + wire pre)
    (hroom : cp ≤ comp + length) (hsaved : pre = [] ∨ cap ≤ old.length → dnptrs = old)
    (hfuel : (text ls).length < fuel) :
    Compressed old comp cp m ls dnptrs
      (compLoop old cap comp (comp + length) fuel m cp (text ls) dnptrs) := by
  induction ls generalizing fuel m cp dnptrs pre with
  | nil =>
    obtain ⟨fuel, rfl⟩ : ∃ f, fuel = f + 1 := ⟨fuel - 1, by omega⟩
    rw [compLoop]
    exact compEnd_spec (by omega)
  | cons l ls ih =>
    obtain ⟨fuel, rfl⟩ : ∃ f, fuel = f + 1 := ⟨fuel - 1, by omega⟩
    have hlab := hl l List.mem_cons_self
    have hpos := hlab.length_pos
    have hle := hlab.le
    rw [compLoop, if_neg (text_ne_nil hl (List.cons_ne_nil l ls)),
      dnFind_congr hv hl (List.cons_ne_nil l ls) (Nat.lt_succ_self comp) hm]
    cases hfind : dnFind m₀ (comp + 1) (text (l :: ls)) old with
    | some q =>
      obtain ⟨hoff, hsave⟩ := hfits pre (l :: ls) q rfl ⟨List.cons_ne_nil l ls, hfind, hnone⟩
      obtain ⟨e, hat, hend⟩ :=
        dnFind_some hv hl (List.cons_ne_nil l ls) (Nat.lt_succ_self comp) hfind
      have hlt := hat.lt
      by_cases hptr : cp + 1 ≥ comp + length
      · simp only [if_pos hptr]
        exact ⟨fun _ _ => rfl, fun _ => hsaved (hsave (by omega) (by omega)), fun n h => nomatch h⟩
      · simp only [if_neg hptr]
        have hat' : At m q q (l :: ls) e := hat.congr (Nat.le_refl _) fun a ha => hm a (by omega)
        exact compPtr_spec hat' hend (List.cons_ne_nil l ls) (hoff (by omega)) (by omega)
    | none =>
      obtain ⟨rest, htext, hrest⟩ := text_cons l ls
      have htail : rest.tail = text ls := by
        obtain ⟨rfl, rfl⟩ | ⟨-, rfl⟩ := hrest <;> rfl
      obtain ⟨m', hcopy, hframe, hholds⟩ := copyLabel_spec (comp + length) m (cp + 1) hlab.nul
        (hrest.imp (fun h => h.2) fun h => ⟨_, h.2⟩)
      have hlen : (text ls).length < (text (l :: ls)).length := length_text_lt hlab
      simp only [htext, hcopy, htail]
      by_cases hfit : cp + 1 + l.length ≤ comp + length
      · have hnum : cp + 1 + l.length - cp - 1 = l.length := by omega
        rw [if_pos (.inl hfit)]
        simp only [hnum]
        rw [if_neg (by omega), if_neg (by omega)]
        have hmore : (∀ a, a < comp → m'.put8 cp (BitVec.ofNat 8 l.length) a = m₀ a) := by
          intro a ha
          rw [put8_below (by omega), hframe a (by omega), hm a ha]
        have hnone' : ∀ a b, pre ++ [l] = a ++ b → b ≠ [] →
            dnFind m₀ (comp + 1) (text (b ++ ls)) old = none := by
          intro a b hab hb
          obtain ⟨b, x, rfl⟩ := (List.eq_nil_or_concat b).resolve_left hb
          rw [List.concat_eq_append, ← List.append_assoc] at hab
          obtain ⟨rfl, hx⟩ := List.append_inj' hab rfl
          obtain rfl := (List.cons.inj hx).1
          rw [List.concat_eq_append, List.append_assoc]
          by_cases hb : b = []
          · rw [hb]
            exact hfind
          · exact hnone a b rfl hb
        have hsaved' : pre ++ [l] = [] ∨ cap ≤ old.length →
            (if dnptrs.length < cap then dnptrs ++ [cp] else dnptrs) = old := by
          rintro (h | h)
          · exact absurd h (List.append_ne_nil_of_right_ne_nil _ (List.cons_ne_nil l []))
          · rw [hsaved (.inr h), if_neg (by omega)]
        have hwire := wire_snoc pre l
        have hrec := ih (fun l h => hl l (List.mem_cons_of_mem _ h)) hmore hnone'
          (by rwa [List.append_assoc]) (by omega) hfit hsaved' (by omega : (text ls).length < fuel)
        generalize compLoop old cap comp (comp + length) fuel _ _ _ _ = r at hrec ⊢
        refine ⟨?_, hrec.failed, fun n hn => ?_⟩
        · intro a ha
          rw [hrec.frame a (by omega), put8_below ha, hframe a (by omega)]
        · obtain ⟨hat, hptrs⟩ := hrec.ret n hn
          have hbyte : ∀ a, a < cp + 1 + l.length → a ≠ cp → r.m a = m' a := fun a ha hne =>
            (hrec.frame a ha).trans (ByteMem.put8_of_ne hne _)
          have hname : At r.m comp cp (l :: ls) (comp + n) := by
            refine .label hlab ?_ ?_ hat
            · rw [hrec.frame cp (by omega), ByteMem.put8_same]
            · intro j hj
              rw [hbyte _ (by omega) (by omega)]
              exact hholds hfit j hj
          refine ⟨hname, fun q hq => ?_⟩
          obtain hq | hq := hptrs q hq
          · split_ifs at hq with hcap
            · obtain hq | hq := List.mem_append.mp hq
              · exact .inl hq
              · obtain rfl := List.mem_singleton.mp hq
                exact .inr ⟨_, List.cons_ne_nil l ls, hname.mono (by omega)⟩
            · exact .inl hq
          · exact .inr hq
      · rw [if_neg]
        · exact ⟨fun a ha => hframe a (by omega), fun _ => rfl, fun n h => nomatch h⟩
        · rintro (h | rfl)
          · exact hfit h
          · exact absurd hpos (Nat.lt_irrefl 0)

theorem dnComp_spec {labels : List (List Byte)} (hl : ∀ l ∈ labels, IsLabel l)
    (hv : Valid m comp old) (hfits : Fits m comp length old cap labels) :
    Compressed old comp comp m labels old (dnComp m (text labels) comp length old cap) := by
  have hnil : Fits m comp length old cap ([] ++ labels) := hfits
  apply compLoop_spec hl hv (fun _ _ => rfl) _ hnil rfl (Nat.le_add_right ..) (fun _ => rfl)
    (Nat.lt_succ_self _)
  intro a b hab hb
  exact absurd (List.append_eq_nil_iff.mp hab.symm).2 hb

/-! ## Runs -/

/-- The names that come back: their labels have no backslash, and `dn_comp` can compress them. -/
def Act.Sound (cap : ℕ) (s : State) : Act → Prop
  | .comp labels length =>
    (∀ l ∈ labels, backslash ∉ l) ∧ Fits s.m s.eom length s.dnptrs cap labels
  | .data _ => True

/-- A name in a message. -/
structure Entry.Holds (m : ByteMem) (eom : ℕ) (name : Entry) : Prop where
  labels : ∀ l ∈ name.labels, IsLabel l
  plain : ∀ l ∈ name.labels, backslash ∉ l
  at_start : At m name.start name.start name.labels (name.start + name.used)
  le : name.start + name.used ≤ eom

theorem Entry.Holds.congr {eom eom' : ℕ} {name : Entry} (h : name.Holds m eom) (he : eom ≤ eom')
    (hm : ∀ a, a < eom → m' a = m a) : name.Holds m' eom' := by
  have hle := h.le
  refine ⟨h.labels, h.plain, ?_, by omega⟩
  exact h.at_start.congr (Nat.le_refl _) fun a ha => hm a (by omega)

/-- The offsets in the list, and the names in the message. -/
structure Inv (s : State) : Prop where
  valid : Valid s.m s.eom s.dnptrs
  names : ∀ name ∈ s.names, name.Holds s.m s.eom

theorem Inv.step {s : State} (h : Inv s) {act : Act} (hn : act.Named) (hP : act.Sound cap s) :
    Inv (step cap s act) := by
  cases act with
  | comp labels length =>
    have hspec := dnComp_spec hn h.valid hP.2
    rw [ResComp.step]
    generalize dnComp s.m (text labels) s.eom length s.dnptrs cap = r at hspec ⊢
    cases hret : r.ret with
    | none =>
      have hlist := hspec.failed hret
      refine ⟨?_, fun name hname => ?_⟩
      · change Valid r.m s.eom r.dnptrs
        rw [hlist]
        exact h.valid.congr hspec.frame
      · exact (h.names name hname).congr (Nat.le_refl _) hspec.frame
    | some n =>
      obtain ⟨hat, hptrs⟩ := hspec.ret n hret
      refine ⟨fun q hq => ?_, fun name hname => ?_⟩
      · obtain hq | ⟨ls', hne, hat'⟩ := hptrs q hq
        · exact (h.valid.congr hspec.frame).mono (Nat.le_add_right ..) q hq
        · exact ⟨ls', s.eom + n, hne, hat', Nat.le_refl _⟩
      · obtain hname | hname := List.mem_append.mp hname
        · exact (h.names name hname).congr (Nat.le_add_right ..) hspec.frame
        · obtain rfl := List.mem_singleton.mp hname
          exact ⟨hn, hP.1, hat, Nat.le_refl _⟩
  | data bytes =>
    have hframe : ∀ a, a < s.eom → (ResComp.step cap s (.data bytes)).m a = s.m a := by
      intro a ha
      exact dif_neg fun hin => absurd hin.1 (Nat.not_le_of_lt ha)
    exact ⟨(h.valid.congr hframe).mono (Nat.le_add_right ..), fun name hname =>
      (h.names name hname).congr (Nat.le_add_right ..) hframe⟩

theorem Reached.inv {s : State} (h : Reached cap (fun s act => act.Sound cap s) s) : Inv s := by
  induction h with
  | init m eom => exact ⟨fun q hq => (nomatch hq), fun name hname => (nomatch hname)⟩
  | step h act hn hP ih => exact ih.step hn hP

/-- Every name in the message comes back, with the size that `dn_comp` gave; a call of `dn_comp` that
fails leaves the list as it was. -/
theorem reached_expand {s : State} (h : Reached cap (fun s act => act.Sound cap s) s) :
    (∀ name ∈ s.names, ∀ eomorig length, s.eom ≤ eomorig → (text name.labels).length < length →
      dnExpand s.m eomorig name.start length = some (text name.labels, name.used)) ∧
    ∀ labels length, (∀ l ∈ labels, IsLabel l) → (Act.comp labels length).Sound cap s →
      (dnComp s.m (text labels) s.eom length s.dnptrs cap).ret = none →
      (dnComp s.m (text labels) s.eom length s.dnptrs cap).dnptrs = s.dnptrs := by
  have hinv := h.inv
  refine ⟨fun name hname eomorig length heom hlen => ?_, fun labels length hl hP hret => ?_⟩
  · have hold := hinv.names name hname
    have hused : name.start + name.used - name.start = name.used := Nat.add_sub_cancel_left ..
    have hle := hold.le
    rw [dnExpand_spec hold.at_start (by omega) hold.labels hold.plain hlen, hused]
  · exact (dnComp_spec hl hinv.valid hP.2).failed hret

/-- `a` at the beginning of a message. -/
def sample : State := step 5 ⟨fun _ => 0, 0, [], []⟩ (.comp [[0x61#8]] 100)

theorem sample_reached {P : State → Act → Prop} (h : P ⟨fun _ => 0, 0, [], []⟩
    (.comp [[0x61#8]] 100)) : Reached 5 P sample := by
  apply Reached.step (.init _ _) _ _ h
  rintro l hl
  obtain rfl := List.mem_singleton.mp hl
  exact ⟨by decide, by decide, by decide⟩

theorem sample_sound : (Act.comp [[0x61#8]] 100).Sound 5 ⟨fun _ => 0, 0, [], []⟩ := by
  refine ⟨by decide, fun pre suf q _ hfirst => ?_⟩
  exact nomatch hfirst.2.1

theorem reached_expand_sample :
    (∀ name ∈ sample.names, ∀ eomorig length, sample.eom ≤ eomorig →
      (text name.labels).length < length →
      dnExpand sample.m eomorig name.start length = some (text name.labels, name.used)) ∧
    ∀ labels length, (∀ l ∈ labels, IsLabel l) → (Act.comp labels length).Sound 5 sample →
      (dnComp sample.m (text labels) sample.eom length sample.dnptrs 5).ret = none →
      (dnComp sample.m (text labels) sample.eom length sample.dnptrs 5).dnptrs = sample.dnptrs :=
  reached_expand (sample_reached sample_sound)

/-- The name of one backslash does not come back, and `b.a` where a pointer has no room leaves its
offset in the list. -/
theorem not_reached_expand :
    (¬ ∀ cap s, Reached cap (fun _ _ => True) s →
      ∀ name ∈ s.names, ∀ eomorig length, s.eom ≤ eomorig → (text name.labels).length < length →
        dnExpand s.m eomorig name.start length = some (text name.labels, name.used)) ∧
    ¬ ∀ cap s, Reached cap (fun _ _ => True) s →
      ∀ labels length, (∀ l ∈ labels, IsLabel l) →
        (dnComp s.m (text labels) s.eom length s.dnptrs cap).ret = none →
        (dnComp s.m (text labels) s.eom length s.dnptrs cap).dnptrs = s.dnptrs := by
  constructor
  · intro h
    have hlab : ∀ l ∈ [[backslash]], IsLabel l := by
      intro l hl
      obtain rfl := List.mem_singleton.mp hl
      exact ⟨by decide, by decide, by decide⟩
    have hback := h 5 _ (.step (.init (fun _ => 0) 0) (.comp [[backslash]] 100) hlab trivial)
      ⟨0, [[backslash]], 3⟩ (by decide +kernel) 100 100 (by decide +kernel) (by decide)
    revert hback
    decide +kernel
  · intro h
    have hlab : ∀ l ∈ [[0x62#8], [0x61#8]], IsLabel l := by
      intro l hl
      obtain rfl | hl := List.mem_cons.mp hl
      · exact ⟨by decide, by decide, by decide⟩
      · obtain rfl := List.mem_singleton.mp hl
        exact ⟨by decide, by decide, by decide⟩
    have hlist := h 5 sample (sample_reached trivial) [[0x62#8], [0x61#8]] 3 hlab (by decide +kernel)
    revert hlist
    decide +kernel

end ResComp
