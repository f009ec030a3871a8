import NetBsd.Kern.NameCache

/-!
# The chain of the name cache

The chain of all entries in the order of their last use, and the circles of the hash buckets. Calls
keep both in order, but for one: a call that drops an entry puts it before the first of the others,
which it takes to be there.

## Main definitions

* `Inv s l chain`: the chain of entries is `l`, and the circles of the buckets are `chain`
* `DropsLast`: a call drops an entry when there is no other

## Main results

* `Inv.find`: a search in a bucket ends, with an entry of the bucket or none
* `Inv.toTail`, `Inv.drop`: an entry moves to either end of the chain
* `Inv.enter`, `Inv.purge`, `Inv.purgevfs`: what the functions make of the chain and the circles
* `step_wellFormed_iff`: a call of a well-formed cache leaves one that is, unless it drops the last
  entry
-/

namespace NameCache

open InsQueue TailQueue

variable {ν : Type} {s s' : State ν} {ndp : Nameidata ν} {e h : ℕ} {l pre post : List ℕ}
  {chain : ℕ → List ℕ}

/-! ## The invariant -/

/-- The entries in the order of their last use are `l`, and those in the circle of the bucket `h`
are `chain h`. -/
structure Inv (s : State ν) (l : List ℕ) (chain : ℕ → List ℕ) : Prop where
  lru : Chain s.lru (.head ()) l
  all : l.Perm (List.range s.numcache)
  ring : ∀ h ≤ s.nchash.toNat, Ring s.hash (.bucket h) ((chain h).map .entry)
  lt : ∀ h, ∀ e ∈ chain h, e < s.numcache
  own : ∀ h, ∀ e ∈ chain h, bucketOf s (s.ent e).ncName = h
  placed : ∀ e < s.numcache, e ∈ chain (bucketOf s (s.ent e).ncName) ∨ Ring s.hash (.entry e) []

/-- The chain holds every allocated entry once, `nchtail` is its last place, and every entry is in
the circle of its bucket or in one of its own. -/
def WellFormed (s : State ν) : Prop := ∃ l chain, Inv s l chain

theorem bucketOf_le (s : State ν) (name : Name) : bucketOf s name ≤ s.nchash.toNat := by
  rw [bucketOf, BitVec.toNat_and]
  exact Nat.and_le_right

theorem Inv.mem_iff (hi : Inv s l chain) : e ∈ l ↔ e < s.numcache := by
  rw [hi.all.mem_iff, List.mem_range]

theorem Inv.length (hi : Inv s l chain) : l.length = s.numcache := by
  rw [hi.all.length_eq, List.length_range]

theorem Inv.chain_nodup (hi : Inv s l chain) (hh : h ≤ s.nchash.toNat) : (chain h).Nodup :=
  (List.nodup_cons.mp (hi.ring h hh).nodup).2.of_map _

theorem Inv.chain_length (hi : Inv s l chain) (hh : h ≤ s.nchash.toNat) :
    (chain h).length ≤ s.numcache := by
  have hsub : chain h ⊆ List.range s.numcache := fun e he => List.mem_range.mpr (hi.lt h e he)
  have hle := (List.subperm_of_subset (hi.chain_nodup hh) hsub).length_le
  rw [List.length_range] at hle
  exact hle

theorem nchinit_inv (nchash : BitVec 32) : Inv (nchinit nchash : State ν) [] fun _ => [] where
  lru := ⟨rfl, rfl⟩
  all := List.Perm.refl _
  ring := fun _ _ => ⟨⟨rfl, rfl⟩, List.nodup_singleton _⟩
  lt := fun _ _ he => by cases he
  own := fun _ _ he => by cases he
  placed := fun _ he => absurd he (Nat.not_lt_zero _)

/-- Two caches with the same chain, circles and names. -/
theorem Inv.congr (hi : Inv s l chain) (hlru : s'.lru = s.lru) (hnum : s'.numcache = s.numcache)
    (hhash : s'.hash = s.hash) (hmask : s'.nchash = s.nchash)
    (hname : ∀ e, (s'.ent e).ncName = (s.ent e).ncName) : Inv s' l chain where
  lru := hlru ▸ hi.lru
  all := hnum ▸ hi.all
  ring := hhash ▸ hmask ▸ hi.ring
  lt := hnum ▸ hi.lt
  own := fun h e he => by
    rw [hname, bucketOf, hmask]
    exact hi.own h e he
  placed := fun e he => by
    rw [hname, bucketOf, hmask, hhash]
    exact hi.placed e (hnum ▸ he)

/-! ## Searching -/

section Search

variable [DecidableEq ν]

/-- A search from inside a circle. -/
theorem search_spec {head : Node} {q : List ℕ} {n : Node} {k : ℕ}
    (hw : Walk s.hash n (q.map .entry) head) (hh : head ∉ q.map Node.entry) (hk : q.length < k) :
    search s ndp head k (s.hash.forw n) = .ok (q.find? fun e => isFor s ndp (s.ent e)) := by
  induction q generalizing n k with
  | nil =>
    cases k with
    | zero => cases hk
    | succ k =>
      rw [hw.1, search.eq_def]
      exact if_pos rfl
  | cons e q ih =>
    cases k with
    | zero => cases hk
    | succ k =>
      rw [List.map_cons, List.mem_cons, not_or] at hh
      rw [hw.1, search, if_neg (Ne.symm hh.1)]
      cases hfor : isFor s ndp (s.ent e) with
      | true =>
        rw [if_pos rfl, List.find?_cons, hfor]
      | false =>
        rw [if_neg (by simp), List.find?_cons, hfor]
        exact ih hw.2.2 hh.2 (Nat.lt_of_succ_lt_succ hk)

theorem Inv.find (hi : Inv s l chain) (ndp : Nameidata ν) : find s ndp =
    .ok ((chain (bucketOf s ndp.niName)).find? fun e => isFor s ndp (s.ent e)) := by
  have hle := bucketOf_le s ndp.niName
  have hring := hi.ring _ hle
  exact search_spec hring.walk (List.nodup_cons.mp hring.nodup).1
    (Nat.lt_succ_of_le (hi.chain_length hle))

end Search

/-! ## Moving an entry -/

theorem head_ne (b : ℕ) : (LinkedList.Ref.head () : Place ℕ) ≠ .next b := fun h => by cases h

theorem chain_toTail {lru : Queue ℕ} (hl : Chain lru (.head ()) (pre ++ e :: post)) :
    Chain (toTail lru e) (.head ()) (pre ++ post ++ [e]) := by
  have hafter := hl.drop
  rw [toTail]
  cases post with
  | nil =>
    have hnone : lru.links.next e = none := hafter.2.2.1
    rw [hnone, List.append_nil]
    exact hl
  | cons f post =>
    have hsome : lru.links.next e = some f := hafter.2.2.1
    have hnd := hl.nodup
    rw [hsome]
    refine (hl.remove fun b _ => head_ne b).insertTail ?_ fun b _ => head_ne b
    rw [List.nodup_middle] at hnd
    exact (List.nodup_cons.mp hnd).1

theorem perm_toTail : (pre ++ post ++ [e]).Perm (pre ++ e :: post) := by
  refine List.perm_append_comm.trans ?_
  rw [List.singleton_append]
  exact List.perm_middle.symm

theorem Inv.toTail (hi : Inv s (pre ++ e :: post) chain) :
    Inv { s with lru := toTail s.lru e } (pre ++ post ++ [e]) chain where
  lru := chain_toTail hi.lru
  all := perm_toTail.trans hi.all
  ring := hi.ring
  lt := hi.lt
  own := hi.own
  placed := hi.placed

/-- The entries that stay in a bucket when one is dropped. -/
def without (chain : ℕ → List ℕ) (e : ℕ) (h : ℕ) : List ℕ := (chain h).erase e

theorem Inv.le_mask (hi : Inv s l chain) (he : e ∈ chain h) : h ≤ s.nchash.toNat := by
  rw [← hi.own h e he]
  exact bucketOf_le s _

theorem Inv.mem_without (hi : Inv s l chain) {f : ℕ} :
    f ∈ without chain e h ↔ f ≠ e ∧ f ∈ chain h := by
  constructor
  · intro hf
    have hmem := List.mem_of_mem_erase hf
    exact ((hi.chain_nodup (hi.le_mask hmem)).mem_erase_iff).mp hf
  · rintro ⟨hne, hmem⟩
    exact ((hi.chain_nodup (hi.le_mask hmem)).mem_erase_iff).mpr ⟨hne, hmem⟩

/-- An entry is taken out of its circle. -/
theorem Inv.remque (hi : Inv s l chain) (he : e < s.numcache) :
    ∃ hash, remque s.hash (.entry e) = .ok hash ∧
      (∀ h ≤ s.nchash.toNat, Ring hash (.bucket h) ((without chain e h).map .entry)) ∧
      ∀ f < s.numcache, f ≠ e →
        f ∈ without chain e (bucketOf s (s.ent f).ncName) ∨ Ring hash (.entry f) [] := by
  by_cases hmem : e ∈ chain (bucketOf s (s.ent e).ncName)
  · -- the entry is in the circle of its bucket
    generalize hb : bucketOf s (s.ent e).ncName = b at hmem
    have hle := hi.le_mask hmem
    have hnd := hi.chain_nodup hle
    rcases List.append_of_mem hmem with ⟨p, q, hpq⟩
    have hring := hi.ring b hle
    rw [hpq, List.map_append, List.map_cons] at hring
    rcases hring.remque with ⟨hash, hrem, hring', hsame⟩
    have hout {f : ℕ} (hf : f ∉ chain b) : SameAt s.hash hash (.entry f) := by
      apply hsame
      intro hin
      rw [← List.map_cons, ← List.map_append, ← hpq] at hin
      rcases List.mem_cons.mp hin with heq | hin
      · cases heq
      · rcases List.mem_map.mp hin with ⟨g, hg, heq⟩
        cases heq
        exact hf hg
    have herase : without chain e b = p ++ q := by
      rw [without, hpq]
      rw [hpq] at hnd
      have hp : e ∉ p := fun hp => (List.nodup_append.mp hnd).2.2 e hp e List.mem_cons_self rfl
      rw [List.erase_append_right _ hp, List.erase_cons_head]
    refine ⟨hash, hrem, fun h hh => ?_, fun f hf hfe => ?_⟩
    · by_cases hhb : h = b
      · rw [hhb, herase, List.map_append]
        exact hring'
      · have hnot : ∀ f ∈ chain h, f ∉ chain b := by
          intro f hf hfb
          exact hhb ((hi.own h f hf).symm.trans (hi.own b f hfb))
        have hsub : without chain e h = chain h :=
          List.erase_of_not_mem fun hm => hnot e hm hmem
        rw [hsub]
        refine (hi.ring h hh).congr fun x hx => ?_
        rcases List.mem_cons.mp hx with rfl | hx
        · apply hsame
          intro hin
          rcases List.mem_cons.mp hin with heq | hin
          · exact hhb (Node.bucket.inj heq)
          · rw [← List.map_cons, ← List.map_append] at hin
            rcases List.mem_map.mp hin with ⟨g, -, heq⟩
            cases heq
        · rcases List.mem_map.mp hx with ⟨f, hf, rfl⟩
          exact hout (hnot f hf)
    · by_cases hfm : f ∈ chain (bucketOf s (s.ent f).ncName)
      · exact Or.inl (hi.mem_without.mpr ⟨hfe, hfm⟩)
      · right
        have halone := (hi.placed f hf).resolve_left hfm
        refine halone.congr fun x hx => ?_
        rw [List.mem_singleton] at hx
        rw [hx]
        refine hout fun hfb => hfm ?_
        rw [hi.own b f hfb]
        exact hfb
  · -- the entry is in a circle of its own
    have hnot : ∀ h, e ∉ chain h := by
      intro h hm
      rw [hi.own h e hm] at hmem
      exact hmem hm
    rcases ((hi.placed e he).resolve_left hmem).remque_alone with ⟨hash, hrem, hsame⟩
    have hsub : ∀ h, without chain e h = chain h := fun h => List.erase_of_not_mem (hnot h)
    refine ⟨hash, hrem, fun h hh => ?_, fun f hf hfe => ?_⟩
    · rw [hsub]
      refine (hi.ring h hh).congr fun x hx => hsame x ?_
      rintro rfl
      rcases List.mem_cons.mp hx with heq | hx
      · cases heq
      · rcases List.mem_map.mp hx with ⟨g, hg, heq⟩
        cases heq
        exact hnot h hg
    · rw [hsub]
      refine (hi.placed f hf).imp id fun halone => halone.congr fun x hx => hsame x ?_
      rw [List.mem_singleton] at hx
      rw [hx]
      exact fun heq => hfe (Node.entry.inj heq)

/-- The only entry cannot be dropped. -/
theorem Inv.drop_only (hi : Inv s [e] chain) : drop s e = .error .deref := by
  rcases hi.remque (hi.mem_iff.mp List.mem_cons_self) with ⟨hash, hrem, -, -⟩
  have hempty : Chain (remove s.lru e) (.head ()) [] := hi.lru.remove_first
  have hhead : (remove s.lru e).links.head () = none := hempty.1
  simp only [drop, hrem, hhead]
  rfl

/-- Any other entry goes to the head of the chain and out of its bucket. -/
theorem Inv.drop (hi : Inv s (pre ++ e :: post) chain) (hne : pre ++ post ≠ []) :
    ∃ lru hash, drop s e = .ok { s with lru := lru, hash := hash } ∧
      Inv { s with lru := lru, hash := hash } (e :: (pre ++ post)) (without chain e) := by
  have he : e < s.numcache := hi.mem_iff.mp (by simp)
  rcases hi.remque he with ⟨hash, hrem, hring, hplaced⟩
  have hrest : Chain (remove s.lru e) (.head ()) (pre ++ post) :=
    hi.lru.remove fun b _ => head_ne b
  have hnd := hi.lru.nodup
  rw [List.nodup_middle] at hnd
  cases hl : pre ++ post with
  | nil => exact absurd hl hne
  | cons first rest =>
    rw [hl] at hrest hnd
    have hhead : (remove s.lru e).links.head () = some first := hrest.1
    refine ⟨_, _, by simp only [NameCache.drop, hrem, hhead]; rfl, ?_⟩
    refine ⟨hrest.insertHead (List.nodup_cons.mp hnd).1, ?_, fun h hh => ?_, ?_, ?_, ?_⟩
    · rw [← hl]
      exact List.perm_middle.symm.trans hi.all
    · refine (hring h hh).congr fun x hx => same_alone ?_
      rintro rfl
      rcases List.mem_cons.mp hx with heq | hx
      · cases heq
      · rcases List.mem_map.mp hx with ⟨f, hf, heq⟩
        exact (hi.mem_without.mp hf).1 (Node.entry.inj heq)
    · exact fun h f hf => hi.lt h f (hi.mem_without.mp hf).2
    · exact fun h f hf => hi.own h f (hi.mem_without.mp hf).2
    · intro f hf
      by_cases hfe : f = e
      · rw [hfe]
        exact Or.inr (ring_alone hash _)
      · refine (hplaced f hf hfe).imp id fun halone => halone.congr fun x hx => same_alone ?_
        rw [List.mem_singleton] at hx
        rw [hx]
        exact fun heq => hfe (Node.entry.inj heq)

/-! ## Entering a name -/

/-- The buckets with an entry more. -/
def within (chain : ℕ → List ℕ) (b e : ℕ) : ℕ → List ℕ := Function.update chain b (e :: chain b)

theorem mem_within {f b : ℕ} : f ∈ within chain b e h ↔ f ∈ chain h ∨ h = b ∧ f = e := by
  rw [within]
  by_cases hb : h = b
  · rw [hb, Function.update_self, List.mem_cons]
    tauto
  · rw [Function.update_of_ne hb]
    tauto

/-- An entry that is nowhere goes to the end of the chain and into the bucket of its name. -/
theorem place_inv (hlru : Chain s.lru (.head ()) l) (hall : (e :: l).Perm (List.range s.numcache))
    (hring : ∀ h ≤ s.nchash.toNat, Ring s.hash (.bucket h) ((chain h).map .entry))
    (hlt : ∀ h, ∀ f ∈ chain h, f < s.numcache)
    (hown : ∀ h, ∀ f ∈ chain h, f ≠ e ∧ bucketOf s (s.ent f).ncName = h)
    (hplaced : ∀ f < s.numcache, f ≠ e →
      f ∈ chain (bucketOf s (s.ent f).ncName) ∨ Ring s.hash (.entry f) []) :
    ∃ lru hash, place s ndp e = .ok { s with
        ent := Function.update s.ent e (fill s ndp), lru := lru, hash := hash } ∧
      Inv { s with ent := Function.update s.ent e (fill s ndp), lru := lru, hash := hash } (l ++ [e])
        (within chain (bucketOf s ndp.niName) e) := by
  have hnd : (e :: l).Nodup := hall.nodup_iff.mpr List.nodup_range
  have he : e < s.numcache := List.mem_range.mp (hall.mem_iff.mp List.mem_cons_self)
  have hle := bucketOf_le s ndp.niName
  generalize hb : bucketOf s ndp.niName = b at hle
  have hout : Node.entry e ∉ Node.bucket b :: (chain b).map .entry := by
    intro hin
    rcases List.mem_cons.mp hin with heq | hin
    · cases heq
    · rcases List.mem_map.mp hin with ⟨f, hf, heq⟩
      exact (hown b f hf).1 (Node.entry.inj heq)
  rcases (hring b hle).insque hout with ⟨hash, hins, hring', hsame⟩
  have hbucket (f : ℕ) : bucketOf s (Function.update s.ent e (fill s ndp) f).ncName =
      if f = e then b else bucketOf s (s.ent f).ncName := by
    by_cases hf : f = e
    · rw [hf, Function.update_self, if_pos rfl]
      exact hb
    · rw [Function.update_of_ne hf, if_neg hf]
  refine ⟨_, hash, by simp only [place, hb, hins]; rfl, ?_⟩
  refine ⟨hlru.insertTail (List.nodup_cons.mp hnd).1 fun c _ => head_ne c, ?_, ?_, ?_, ?_, ?_⟩
  · refine List.perm_append_comm.trans ?_
    exact hall
  · intro h hh
    by_cases hhb : h = b
    · rw [hhb, within, Function.update_self]
      exact hring'
    · rw [within, Function.update_of_ne hhb]
      refine (hring h hh).congr fun x hx => ?_
      rcases List.mem_cons.mp hx with rfl | hx
      · apply hsame
        · intro hin
          rcases List.mem_cons.mp hin with heq | hin
          · exact hhb (Node.bucket.inj heq)
          · rcases List.mem_map.mp hin with ⟨g, -, heq⟩
            cases heq
        · exact nofun
      · rcases List.mem_map.mp hx with ⟨f, hf, rfl⟩
        apply hsame
        · intro hin
          rcases List.mem_cons.mp hin with heq | hin
          · cases heq
          · rcases List.mem_map.mp hin with ⟨g, hg, heq⟩
            cases heq
            exact hhb ((hown h f hf).2.symm.trans (hown b f hg).2)
        · exact fun heq => (hown h f hf).1 (Node.entry.inj heq)
  · intro h f hf
    rcases mem_within.mp hf with hf | ⟨-, rfl⟩
    · exact hlt h f hf
    · exact he
  · intro h f hf
    refine (hbucket f).trans ?_
    rcases mem_within.mp hf with hf | ⟨rfl, rfl⟩
    · rw [if_neg (hown h f hf).1]
      exact (hown h f hf).2
    · exact if_pos rfl
  · intro f hf
    by_cases hfe : f = e
    · left
      refine mem_within.mpr (Or.inr ⟨?_, hfe⟩)
      exact (hbucket f).trans (if_pos hfe)
    · have hbf : bucketOf s (Function.update s.ent e (fill s ndp) f).ncName =
          bucketOf s (s.ent f).ncName := (hbucket f).trans (if_neg hfe)
      rcases hplaced f hf hfe with hmem | halone
      · left
        refine mem_within.mpr (Or.inl ?_)
        change f ∈ chain (bucketOf s (Function.update s.ent e (fill s ndp) f).ncName)
        rw [hbf]
        exact hmem
      · by_cases hmem : f ∈ chain b
        · left
          refine mem_within.mpr (Or.inl ?_)
          change f ∈ chain (bucketOf s (Function.update s.ent e (fill s ndp) f).ncName)
          rw [hbf, (hown b f hmem).2]
          exact hmem
        · right
          refine halone.congr fun x hx => ?_
          rw [List.mem_singleton] at hx
          rw [hx]
          apply hsame
          · intro hin
            rcases List.mem_cons.mp hin with heq | hin
            · cases heq
            · rcases List.mem_map.mp hin with ⟨g, hg, heq⟩
              cases heq
              exact hmem hg
          · exact fun heq => hfe (Node.entry.inj heq)

/-- Entering a name takes a new entry or the first of the chain, or does nothing. -/
theorem Inv.enter (hi : Inv s l chain) (desiredvnodes : ℤ) (ndp : Nameidata ν) :
    ∃ s', cacheEnter s desiredvnodes ndp = .ok s' ∧ (s' = s ∨ ∃ e l' lru hash n,
      s' = { s with numcache := n, ent := Function.update s.ent e (fill s ndp), lru := lru,
                    hash := hash } ∧
        Inv s' l' (within (without chain e) (bucketOf s ndp.niName) e)) := by
  rw [cacheEnter]
  split
  · exact ⟨s, rfl, Or.inl rfl⟩
  · split
    · -- a new entry
      have hnew : ∀ h, s.numcache ∉ chain h := fun h hm => Nat.lt_irrefl _ (hi.lt h _ hm)
      have hsub : without chain s.numcache = chain :=
        funext fun h => List.erase_of_not_mem (hnew h)
      have hplace := @place_inv ν { s with numcache := s.numcache + 1 } ndp s.numcache l chain
        hi.lru ?_ hi.ring (fun h f hf => Nat.lt_succ_of_lt (hi.lt h f hf)) ?_ ?_
      · rcases hplace with ⟨lru, hash, hok, hinv⟩
        refine ⟨_, hok, Or.inr ⟨s.numcache, l ++ [s.numcache], lru, hash, s.numcache + 1, rfl, ?_⟩⟩
        rw [hsub]
        exact hinv
      · rw [List.range_succ]
        exact (hi.all.cons _).trans (List.perm_append_singleton _ _).symm
      · refine fun h f hf => ⟨?_, hi.own h f hf⟩
        rintro rfl
        exact hnew h hf
      · exact fun f hf hne => hi.placed f (Nat.lt_of_le_of_ne (Nat.le_of_lt_succ hf) hne)
    · cases l with
      | nil =>
        have hhead : s.lru.links.head () = none := hi.lru.1
        rw [hhead]
        exact ⟨s, rfl, Or.inl rfl⟩
      | cons e l =>
        have hhead : s.lru.links.head () = some e := hi.lru.1
        have he : e < s.numcache := hi.mem_iff.mp List.mem_cons_self
        rcases hi.remque he with ⟨hash, hrem, hring, hplaced⟩
        have hrest : Chain (remove s.lru e) (.head ()) l := hi.lru.remove_first
        rcases @place_inv ν { s with lru := remove s.lru e, hash := hash } ndp e l (without chain e)
          hrest hi.all hring (fun h f hf => hi.lt h f (hi.mem_without.mp hf).2)
          (fun h f hf => ⟨(hi.mem_without.mp hf).1, hi.own h f (hi.mem_without.mp hf).2⟩) hplaced
          with ⟨lru, hash', hok, hinv⟩
        rw [hhead]
        simp only [hrem]
        exact ⟨_, hok, Or.inr ⟨e, l ++ [e], lru, hash', s.numcache, rfl, hinv⟩⟩

/-! ## Purging -/

/-- What the clearing of a bucket makes of the entries. -/
def cleared (q : List ℕ) (ent : ℕ → Namecache ν) (e : ℕ) : Namecache ν :=
  if e ∈ q then (ent e).clear else ent e

theorem clearBucket_spec {hash : Links Node} {head n : Node} {q : List ℕ} {k : ℕ}
    {ent : ℕ → Namecache ν} (hw : Walk hash n (q.map .entry) head)
    (hh : head ∉ q.map Node.entry) (hnd : q.Nodup) (hk : q.length < k) :
    clearBucket hash head k (hash.forw n) ent = .ok (cleared q ent) := by
  induction q generalizing n k ent with
  | nil =>
    cases k with
    | zero => cases hk
    | succ k =>
      rw [hw.1, clearBucket.eq_def]
      exact if_pos rfl
  | cons e q ih =>
    cases k with
    | zero => cases hk
    | succ k =>
      rw [List.map_cons, List.mem_cons, not_or] at hh
      rw [hw.1, clearBucket, if_neg (Ne.symm hh.1)]
      rcases List.nodup_cons.mp hnd with ⟨he, hnd⟩
      rw [ih hw.2.2 hh.2 hnd (Nat.lt_of_succ_lt_succ hk)]
      congr 1
      funext f
      simp only [cleared, List.mem_cons]
      by_cases hf : f = e
      · rw [hf, if_neg he, if_pos (Or.inl rfl), Function.update_self]
      · rw [Function.update_of_ne hf]
        simp only [hf, false_or]

/-- The entries of the first `n` buckets. -/
def inBuckets (chain : ℕ → List ℕ) (n : ℕ) : List ℕ := (List.range n).flatMap chain

theorem mem_inBuckets {n : ℕ} : e ∈ inBuckets chain n ↔ ∃ h < n, e ∈ chain h := by
  simp [inBuckets]

theorem clear_clear (ncp : Namecache ν) : ncp.clear.clear = ncp.clear := rfl

theorem Inv.clearTable (hi : Inv s l chain) {n : ℕ} (hn : n ≤ s.nchash.toNat + 1)
    (ent : ℕ → Namecache ν) : clearTable s.hash (s.numcache + 1) n ent =
      .ok (cleared (inBuckets chain n) ent) := by
  induction n generalizing ent with
  | zero => rfl
  | succ n ih =>
    have hle : n ≤ s.nchash.toNat := Nat.le_of_lt_succ hn
    have hring := hi.ring n hle
    have hone := @clearBucket_spec ν s.hash (.bucket n) (.bucket n) (chain n) (s.numcache + 1) ent
      hring.walk (List.nodup_cons.mp hring.nodup).1 (hi.chain_nodup hle)
      (Nat.lt_succ_of_le (hi.chain_length hle))
    simp only [NameCache.clearTable, hone]
    refine (ih (Nat.le_of_lt hn) _).trans ?_
    congr 1
    funext f
    simp only [cleared, mem_inBuckets, Nat.lt_succ_iff_lt_or_eq, or_and_right, exists_or,
      exists_eq_left]
    by_cases hf : ∃ h < n, f ∈ chain h
    · by_cases hfn : f ∈ chain n <;> simp [hf, hfn, clear_clear]
    · by_cases hfn : f ∈ chain n <;> simp [hf, hfn]

section Purge

variable [DecidableEq ν]

/-- The identifier that a purge gives out. -/
def nextId (s : State ν) : BitVec 32 :=
  if s.nextvnodeid + 1 = 0 then s.nextvnodeid + 1 + 1 else s.nextvnodeid + 1

/-- A purge gives the vnode the next identifier; when the counter wraps, the identifiers of all
entries in buckets are cleared. -/
theorem Inv.purge (hi : Inv s l chain) (vp : ν) :
    ∃ s', cachePurge s vp = .ok s' ∧ Inv s' l chain ∧ s' = { s with
      nextvnodeid := nextId s, vId := Function.update s.vId vp (nextId s)
      ent := if s.nextvnodeid + 1 = 0 then cleared (inBuckets chain (s.nchash.toNat + 1)) s.ent
        else s.ent } := by
  rw [cachePurge]
  by_cases hwrap : s.nextvnodeid + 1 = 0
  · dsimp only
    rw [if_neg (not_not.mpr hwrap), hi.clearTable (Nat.le_refl _)]
    refine ⟨_, rfl, hi.congr rfl rfl rfl rfl fun e => ?_, ?_⟩
    · change (cleared _ s.ent e).ncName = _
      rw [cleared]
      split <;> rfl
    · simp only [nextId, if_pos hwrap, Function.update_idem]
  · dsimp only
    rw [if_pos hwrap]
    refine ⟨_, rfl, hi.congr rfl rfl rfl rfl fun e => rfl, ?_⟩
    simp only [nextId, if_neg hwrap]

end Purge

/-! ## Purging a file system -/

/-- The entries that stay in buckets are the same. -/
structure Keeps (s : State ν) (chain : ℕ → List ℕ) (s' : State ν) (chain' : ℕ → List ℕ) : Prop where
  mem : ∀ h, ∀ e ∈ chain' h, e ∈ chain h
  ent : ∀ h, ∀ e ∈ chain' h, s'.ent e = s.ent e
  vId : s'.vId = s.vId
  nextvnodeid : s'.nextvnodeid = s.nextvnodeid
  nchash : s'.nchash = s.nchash

theorem Keeps.refl (s : State ν) (chain : ℕ → List ℕ) : Keeps s chain s chain :=
  ⟨fun _ _ h => h, fun _ _ _ => rfl, rfl, rfl, rfl⟩

theorem Keeps.trans {s'' : State ν} {chain' chain'' : ℕ → List ℕ} (h : Keeps s chain s' chain')
    (h' : Keeps s' chain' s'' chain'') : Keeps s chain s'' chain'' where
  mem := fun i e he => h.mem i e (h'.mem i e he)
  ent := fun i e he => (h'.ent i e he).trans (h.ent i e (h'.mem i e he))
  vId := h'.vId.trans h.vId
  nextvnodeid := h'.nextvnodeid.trans h.nextvnodeid
  nchash := h'.nchash.trans h.nchash

theorem Inv.keeps_drop (hi : Inv s l chain) (lru : Queue ℕ) (hash : Links Node) :
    Keeps s chain { s with lru := lru, hash := hash } (without chain e) :=
  ⟨fun _ _ hf => (hi.mem_without.mp hf).2, fun _ _ _ => rfl, rfl, rfl, rfl⟩

/-- How many entries of the chain are for the file system. -/
def matching (onMp : ν → Bool) (s : State ν) (l : List ℕ) : ℕ :=
  l.countP fun e => isOn onMp (s.ent e)

/-- An entry of the file system is dropped and no longer for it. -/
theorem Inv.purgeOne {onMp : ν → Bool} (hi : Inv s (pre ++ e :: post) chain)
    (hon : isOn onMp (s.ent e) = true) (hne : pre ++ post ≠ []) :
    ∃ s', NameCache.drop { s with ent := Function.update s.ent e (s.ent e).release } e = .ok s' ∧
      Inv s' (e :: (pre ++ post)) (without chain e) ∧ Keeps s chain s' (without chain e) ∧
      s'.numcache = s.numcache ∧ isOn onMp (s'.ent e) = false ∧
      matching onMp s (pre ++ e :: post) = matching onMp s' (e :: (pre ++ post)) + 1 := by
  have hcleared : Inv { s with ent := Function.update s.ent e (s.ent e).release }
      (pre ++ e :: post) chain := by
    refine hi.congr rfl rfl rfl rfl fun f => ?_
    change (Function.update s.ent e _ f).ncName = _
    by_cases hf : f = e
    · rw [hf, Function.update_self]
      rfl
    · rw [Function.update_of_ne hf]
  rcases hcleared.drop hne with ⟨lru, hash, hok, hinv⟩
  have hnd := hi.lru.nodup
  rw [List.nodup_middle, List.nodup_cons] at hnd
  have hoff : isOn onMp (Function.update s.ent e (s.ent e).release e) = false := by
    rw [Function.update_self]
    rfl
  refine ⟨_, hok, hinv, ⟨fun h f hf => (hi.mem_without.mp hf).2, fun h f hf => ?_, rfl, rfl, rfl⟩,
    rfl, hoff, ?_⟩
  · exact Function.update_of_ne (hi.mem_without.mp hf).1 _ _
  · have hrest : (pre ++ post).countP (fun f => isOn onMp
        (Function.update s.ent e (s.ent e).release f)) =
        (pre ++ post).countP fun f => isOn onMp (s.ent f) := by
      apply List.countP_congr
      intro f hf
      rw [Function.update_of_ne]
      rintro rfl
      exact hnd.1 hf
    rw [matching, matching, List.countP_cons, hrest, hoff, List.countP_append, List.countP_cons, hon,
      List.countP_append]
    simp only [↓reduceIte, Bool.false_eq_true]
    omega

theorem chain_first {q : Queue ℕ} {r : Place ℕ} (hc : Chain q r l) : q.links.get r = l.head? := by
  cases l with
  | nil => exact hc.1
  | cons a l => exact hc.1

/-- The loop drops every entry for the file system. -/
theorem Inv.purgeLoop {onMp : ν → Bool} {k : ℕ} (hi : Inv s (pre ++ post) chain)
    (hpre : ∀ e ∈ pre, isOn onMp (s.ent e) = false)
    (hk : matching onMp s (pre ++ post) * (s.numcache + 1) + post.length ≤ k)
    (hlast : s.numcache = 1 → ∀ e ∈ post, isOn onMp (s.ent e) = false) :
    ∃ s' l' chain', purgeLoop onMp k post.head? s = .ok s' ∧ Inv s' l' chain' ∧
      Keeps s chain s' chain' := by
  induction k generalizing s pre post chain with
  | zero =>
    cases post with
    | nil => exact ⟨s, _, chain, by rw [NameCache.purgeLoop.eq_def]; rfl, hi, Keeps.refl s chain⟩
    | cons e post =>
      rw [List.length_cons] at hk
      omega
  | succ k ih =>
    cases post with
    | nil => exact ⟨s, _, chain, by rw [NameCache.purgeLoop.eq_def]; rfl, hi, Keeps.refl s chain⟩
    | cons e post =>
      rw [List.length_cons] at hk
      simp only [List.head?_cons, NameCache.purgeLoop]
      cases hon : isOn onMp (s.ent e) with
      | false =>
        have hnext : s.lru.links.next e = post.head? := chain_first hi.lru.drop.2.2
        have hsplit : pre ++ e :: post = (pre ++ [e]) ++ post := by simp
        rw [hsplit] at hi hk
        simp only [Bool.not_false, ↓reduceIte, hnext]
        refine ih hi ?_ (by omega) fun h1 f hf => hlast h1 f (List.mem_cons_of_mem _ hf)
        intro f hf
        rcases List.mem_append.mp hf with hf | hf
        · exact hpre f hf
        · rw [List.mem_singleton.mp hf]
          exact hon
      | true =>
        have hlen := hi.length
        rw [List.length_append, List.length_cons] at hlen
        have hone : s.numcache ≠ 1 := fun h1 => by
          have := hlast h1 e List.mem_cons_self
          rw [hon] at this
          cases this
        have hne : pre ++ post ≠ [] := by
          intro hnil
          have := congrArg List.length hnil
          rw [List.length_append, List.length_nil] at this
          omega
        rcases hi.purgeOne hon hne with ⟨s', hdrop, hinv, hkeeps, hnum, hoff, hcount⟩
        have hfirst : (remove s.lru e).links.head () = (pre ++ post).head? :=
          chain_first (hi.lru.remove fun b _ => head_ne b)
        simp only [Bool.not_true, Bool.false_eq_true, ↓reduceIte, hdrop, hfirst]
        rw [hcount] at hk
        have hfuel : matching onMp s' (e :: (pre ++ post)) * (s'.numcache + 1) +
            (pre ++ post).length ≤ k := by
          rw [hnum, List.length_append]
          rw [Nat.add_mul, Nat.one_mul] at hk
          omega
        rcases @ih s' [e] (pre ++ post) (without chain e) hinv
          (fun f hf => List.mem_singleton.mp hf ▸ hoff) hfuel
          (fun h1 => absurd (hnum.symm.trans h1) hone) with ⟨s'', l', chain', hok, hinv', hkeeps'⟩
        exact ⟨s'', l', chain', hok, hinv', hkeeps.trans hkeeps'⟩

theorem Inv.purgevfs {onMp : ν → Bool} (hi : Inv s l chain)
    (hlast : ¬(s.numcache = 1 ∧ isOn onMp (s.ent 0) = true)) :
    ∃ s' l' chain', cachePurgevfs s onMp = .ok s' ∧ Inv s' l' chain' ∧
      Keeps s chain s' chain' := by
  have hhead : s.lru.links.head () = l.head? := chain_first hi.lru
  have hlen := hi.length
  rw [cachePurgevfs, hhead]
  have hnil : Inv s ([] ++ l) chain := hi
  refine hnil.purgeLoop (fun e he => by cases he) ?_ fun h1 e he => ?_
  · have hle : matching onMp s l ≤ l.length := List.countP_le_length
    have hmul : matching onMp s l * (s.numcache + 1) ≤ s.numcache * (s.numcache + 1) :=
      Nat.mul_le_mul_right _ (hlen ▸ hle)
    rw [List.nil_append, hlen, Nat.add_mul, Nat.one_mul]
    omega
  · have hzero : e = 0 := by
      have := hi.mem_iff.mp he
      omega
    rw [hzero]
    cases hon : isOn onMp (s.ent 0) with
    | false => rfl
    | true => exact absurd ⟨h1, hon⟩ hlast

/-- With one entry, the chain is that entry. -/
theorem Inv.only (hi : Inv s l chain) (h1 : s.numcache = 1) : l = [0] := by
  have hp := hi.all
  rw [h1] at hp
  exact List.perm_singleton.mp hp

theorem Inv.purgevfs_only {onMp : ν → Bool} (hi : Inv s l chain) (h1 : s.numcache = 1)
    (hon : isOn onMp (s.ent 0) = true) : cachePurgevfs s onMp = .error .deref := by
  rw [hi.only h1] at hi
  have hhead : s.lru.links.head () = some 0 := hi.lru.1
  have hcleared : Inv { s with ent := Function.update s.ent 0 (s.ent 0).release } [0] chain := by
    refine hi.congr rfl rfl rfl rfl fun f => ?_
    change (Function.update s.ent 0 _ f).ncName = _
    by_cases hf : f = 0
    · rw [hf, Function.update_self]
      rfl
    · rw [Function.update_of_ne hf]
  rw [cachePurgevfs, hhead, h1, NameCache.purgeLoop, hon, hcleared.drop_only]
  rfl

/-! ## Calls -/

section Calls

variable [DecidableEq ν]

/-- A call drops an entry when there is no other. -/
def DropsLast (s : State ν) : Op ν → Prop
  | .lookup ndp => s.doingcache = true ∧ ndp.niName.length ≤ nchnamlen ∧ s.numcache = 1 ∧
      ∃ e, find s ndp = .ok (some e) ∧ usable s ndp (s.ent e) = false
  | .purgevfs onMp => s.numcache = 1 ∧ isOn onMp (s.ent 0) = true
  | _ => False

/-- What a lookup that finds an entry makes of the cache. -/
theorem Inv.lookup (hi : Inv s l chain) (ndp : Nameidata ν) (hlast : ¬DropsLast s (.lookup ndp)) :
    ∃ a s' l' chain', cacheLookup s ndp = .ok (a, s') ∧ Inv s' l' chain' ∧
      Keeps s chain s' chain' ∧ (a.status ≠ 0 → ∃ e ∈ chain (bucketOf s ndp.niName),
        isFor s ndp (s.ent e) = true ∧ usable s ndp (s.ent e) = true ∧
          (a.status = -1 ∧ a.niVp = (s.ent e).ncVp ∧ (s.ent e).ncVp ≠ none ∨
            a.status = enoent ∧ (s.ent e).ncVp = none)) := by
  have hzero {m : Bool} (hs : (0 : ℤ) ≠ 0) : False := hs rfl
  rw [cacheLookup]
  split
  · exact ⟨_, s, l, chain, rfl, hi, Keeps.refl s chain, fun hs => absurd rfl hs⟩
  next hdoing =>
    split
    · exact ⟨_, s, l, chain, rfl, hi, Keeps.refl s chain, fun hs => absurd rfl hs⟩
    next hlong =>
      have hfind := hi.find ndp
      cases hfound : (chain (bucketOf s ndp.niName)).find? fun e => isFor s ndp (s.ent e) with
      | none =>
        rw [hfound] at hfind
        rw [hfind]
        exact ⟨_, s, l, chain, rfl, hi, Keeps.refl s chain, fun hs => absurd rfl hs⟩
      | some e =>
        rw [hfound] at hfind
        have hmem := List.mem_of_find?_eq_some hfound
        have hfor := List.find?_some hfound
        have hin : e ∈ l := hi.mem_iff.mpr (hi.lt _ e hmem)
        rcases List.append_of_mem hin with ⟨pre, post, rfl⟩
        rw [hfind]
        cases huse : usable s ndp (s.ent e) with
        | true =>
          cases hvp : (s.ent e).ncVp with
          | none =>
            refine ⟨⟨enoent, ndp.niMakeentry, ndp.niVp⟩, { s with lru := NameCache.toTail s.lru e }, _,
              chain, ?_, hi.toTail, ⟨fun _ _ h => h, fun _ _ _ => rfl, rfl, rfl, rfl⟩,
              fun _ => ⟨e, hmem, hfor, huse, Or.inr ⟨rfl, hvp⟩⟩⟩
            simp only [bind, Except.bind, huse, hvp, ↓reduceIte]
          | some vp =>
            refine ⟨⟨-1, ndp.niMakeentry, some vp⟩, { s with lru := NameCache.toTail s.lru e }, _,
              chain, ?_, hi.toTail, ⟨fun _ _ h => h, fun _ _ _ => rfl, rfl, rfl, rfl⟩,
              fun _ => ⟨e, hmem, hfor, huse, Or.inl ⟨rfl, hvp.symm, by rw [hvp]; exact nofun⟩⟩⟩
            simp only [bind, Except.bind, huse, hvp, ↓reduceIte]
        | false =>
          have hne : pre ++ post ≠ [] := by
            intro hnil
            have hlen := hi.length
            have hnil' := congrArg List.length hnil
            rw [List.length_append, List.length_nil] at hnil'
            rw [List.length_append, List.length_cons] at hlen
            exact hlast ⟨by simpa using hdoing, by omega, by omega, e, hfind, huse⟩
          rcases hi.drop hne with ⟨lru, hash, hdrop, hinv⟩
          refine ⟨⟨0, ndp.niMakeentry, ndp.niVp⟩, _, _, without chain e, ?_, hinv,
            hi.keeps_drop lru hash, fun hs => absurd rfl hs⟩
          simp only [bind, Except.bind, huse, hdrop, Bool.false_eq_true, ↓reduceIte]

/-- A lookup that drops the only entry follows a null pointer. -/
theorem Inv.lookup_only (hi : Inv s l chain) {ndp : Nameidata ν} (hlast : DropsLast s (.lookup ndp)) :
    cacheLookup s ndp = .error .deref := by
  rcases hlast with ⟨hdoing, hlong, h1, e, hfind, huse⟩
  have hzero : e = 0 := by
    have hmem := hi.find ndp
    rw [hfind] at hmem
    have := hi.lt _ e (List.mem_of_find?_eq_some (Except.ok.inj hmem).symm)
    omega
  rw [hi.only h1, ← hzero] at hi
  rw [cacheLookup, if_neg (by simp [hdoing]), if_neg (by omega), hfind]
  simp only [bind, Except.bind, huse, hi.drop_only, Bool.false_eq_true, ↓reduceIte]

/-- A call that drops the last entry follows a null pointer. -/
theorem Inv.step_fault (hi : Inv s l chain) {op : Op ν} (hlast : DropsLast s op) :
    step s op = .error .deref := by
  cases op with
  | lookup ndp =>
    rw [step, hi.lookup_only hlast]
    rfl
  | enter d ndp h => exact hlast.elim
  | purge vp => exact hlast.elim
  | purgevfs onMp =>
    rw [step, hi.purgevfs_only hlast.1 hlast.2]
    rfl

/-- Any other call leaves a well-formed cache. -/
theorem Inv.step_ok (hi : Inv s l chain) {op : Op ν} (hlast : ¬DropsLast s op) :
    ∃ a s', step s op = .ok (a, s') ∧ WellFormed s' := by
  cases op with
  | lookup ndp =>
    rcases hi.lookup ndp hlast with ⟨a, s', l', chain', hok, hinv, -, -⟩
    exact ⟨some a, s', by rw [step, hok]; rfl, l', chain', hinv⟩
  | enter d ndp h =>
    rcases hi.enter d ndp with ⟨s', hok, hsame | ⟨e, l', lru, hash, n, -, hinv⟩⟩
    · exact ⟨none, s', by rw [step, hok]; rfl, l, chain, hsame ▸ hi⟩
    · exact ⟨none, s', by rw [step, hok]; rfl, l', _, hinv⟩
  | purge vp =>
    rcases hi.purge vp with ⟨s', hok, hinv, -⟩
    exact ⟨none, s', by rw [step, hok]; rfl, l, chain, hinv⟩
  | purgevfs onMp =>
    rcases hi.purgevfs hlast with ⟨s', l', chain', hok, hinv, -⟩
    exact ⟨none, s', by rw [step, hok]; rfl, l', chain', hinv⟩

/-- Every cache that calls lead to from boot is well-formed. -/
theorem Run.wellFormed {ok : State ν → Op ν → Prop} {nchash : BitVec 32} {ops : List (Op ν)}
    (h : Run ok (nchinit nchash) ops s) : WellFormed s := by
  induction h with
  | start => exact ⟨[], _, nchinit_inv nchash⟩
  | @step ops s s' op a _ _ hs ih =>
    rcases ih with ⟨l, chain, hi⟩
    by_cases hlast : DropsLast s op
    · rw [hi.step_fault hlast] at hs
      cases hs
    · rcases hi.step_ok hlast with ⟨a', s'', hok, hwf⟩
      rw [hs] at hok
      cases hok
      exact hwf

/-- From any cache that calls lead to from boot, a call leaves a well-formed one, and follows no
null pointer, exactly when it does not drop the last entry. -/
theorem step_wellFormed_iff {nchash : BitVec 32} {ops : List (Op ν)}
    (h : Run (fun _ _ => True) (nchinit nchash) ops s) (op : Op ν) :
    (∃ a s', step s op = .ok (a, s') ∧ WellFormed s') ↔ ¬DropsLast s op := by
  rcases h.wellFormed with ⟨l, chain, hi⟩
  constructor
  · rintro ⟨a, s', hok, -⟩ hlast
    rw [hi.step_fault hlast] at hok
    cases hok
  · exact hi.step_ok

end Calls

/-- The name `a` in the directory 1, for the vnode 2; the entry is wanted or not. -/
def nameA (makeentry : Bool) : Nameidata ℕ := ⟨1, some 2, [97], makeentry, false⟩

/-- A name is entered at boot. -/
theorem step_wellFormed_iff_boot : ∃ a s',
    step (nchinit 0) (.enter 100 (nameA true) (by decide)) = .ok (a, s') ∧ WellFormed s' :=
  (step_wellFormed_iff .start _).mpr id

/-- A lookup that does not want to keep the only entry follows a null pointer. -/
theorem step_not_wellFormed : ¬∀ (nchash : BitVec 32) (ops : List (Op ℕ)) (s : State ℕ) (op : Op ℕ),
    Run (fun _ _ => True) (nchinit nchash) ops s →
      ∃ a s', step s op = .ok (a, s') ∧ WellFormed s' := by
  intro h
  have hrun : Run (fun _ _ => True) (nchinit 0) _ _ := .step .start trivial
    (show step (nchinit 0) (.enter 100 (nameA true) (by decide)) = .ok (none, _) from rfl)
  rcases h 0 _ _ (.lookup (nameA false)) hrun with ⟨a, s', hok, -⟩
  cases hok

end NameCache
