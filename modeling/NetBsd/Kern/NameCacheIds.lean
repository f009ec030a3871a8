import Mathlib
import NetBsd.Kern.NameCacheChain

/-!
# The answers of the name cache

An entry answers for a directory and a vnode as long as they have the identifiers that they had when
it was entered, and a purge gives a vnode a new one. Identifiers are words of 32 bits: when the
counter wraps, the entries forget theirs, but the vnodes do not.

## Main definitions

* `StoredBy ops dvp name vp post`: a name was entered, and then came the calls `post`
* `Sound`: what an answer of a lookup says was entered, and not purged since
* `Reuses`: a purge gives a vnode an identifier that an entry still has for it

## Main results

* `Run.history`: without such purges, entries with current identifiers were not purged
* `cacheLookup_sound`: so every answer is sound
* `Run.noReuse`: there are no such purges before the counter wraps
-/

namespace NameCache

open InsQueue TailQueue

variable {ν : Type} {s s' : State ν} {ops : List (Op ν)} {op : Op ν} {ndp : Nameidata ν} {dvp vp : ν}
  {name : Name} {l post : List ℕ} {chain : ℕ → List ℕ}

/-! ## Histories -/

/-- The name was entered for `vp`, or for no vnode, and then came the calls `post`. -/
def StoredBy (ops : List (Op ν)) (dvp : ν) (name : Name) (vp : Option ν) (post : List (Op ν)) :
    Prop :=
  ∃ pre desiredvnodes ndp h, ops = pre ++ .enter desiredvnodes ndp h :: post ∧
    ndp.niDvp = dvp ∧ ndp.niName = name ∧ ndp.niVp = vp

/-- The answer of a lookup after the calls `ops` was entered, and neither the directory nor the
vnode has been purged since. -/
structure Sound (ops : List (Op ν)) (ndp : Nameidata ν) (a : Answer ν) : Prop where
  hit : a.status = -1 → ∃ vp post, a.niVp = some vp ∧
    StoredBy ops ndp.niDvp ndp.niName (some vp) post ∧ .purge ndp.niDvp ∉ post ∧ .purge vp ∉ post
  absent : a.status = enoent → ∃ post,
    StoredBy ops ndp.niDvp ndp.niName none post ∧ .purge ndp.niDvp ∉ post

theorem StoredBy.concat {v : Option ν} {post : List (Op ν)} (h : StoredBy ops dvp name v post)
    (op : Op ν) : StoredBy (ops ++ [op]) dvp name v (post ++ [op]) := by
  rcases h with ⟨pre, d, ndp, hlen, rfl, hdvp, hname, hvp⟩
  exact ⟨pre, d, ndp, hlen, by simp, hdvp, hname, hvp⟩

theorem StoredBy.subset {v : Option ν} {post : List (Op ν)} (h : StoredBy ops dvp name v post) :
    post ⊆ ops := by
  rcases h with ⟨pre, d, ndp, hlen, rfl, -⟩
  intro x hx
  simp [hx]

/-- An entry was entered, and what has the identifier in the entry has not been purged since. -/
def Fresh (ops : List (Op ν)) (s : State ν) (ncp : Namecache ν) : Prop :=
  ∃ dvp post, ncp.ncDvp = some dvp ∧ StoredBy ops dvp ncp.ncName ncp.ncVp post ∧
    (ncp.ncDvpid = s.vId dvp → .purge dvp ∉ post) ∧
      ∀ vp, ncp.ncVp = some vp → ncp.ncVpid = s.vId vp → .purge vp ∉ post

/-- A call that is no purge keeps what is fresh. -/
theorem Fresh.concat {ncp : Namecache ν} (h : Fresh ops s ncp) (hid : s'.vId = s.vId)
    (hop : ∀ v, op ≠ .purge v) : Fresh (ops ++ [op]) s' ncp := by
  rcases h with ⟨dvp, post, hdvp, hst, hd, hv⟩
  have hout {v : ν} (hp : .purge v ∉ post) : .purge v ∉ post ++ [op] := by
    rw [List.mem_append, List.mem_singleton, not_or]
    exact ⟨hp, fun heq => hop v heq.symm⟩
  rw [← hid] at hd hv
  exact ⟨dvp, post ++ [op], hdvp, hst.concat op, fun h => hout (hd h), fun v h h' => hout (hv v h h')⟩

/-- The entries in buckets are fresh, and a vnode without an identifier has never been purged. -/
structure History (ops : List (Op ν)) (s : State ν) (chain : ℕ → List ℕ) : Prop where
  fresh : ∀ h, ∀ e ∈ chain h, Fresh ops s (s.ent e)
  zero : ∀ v, s.vId v = 0 → .purge v ∉ ops

theorem History.keeps {chain' : ℕ → List ℕ} (h : History ops s chain)
    (hk : Keeps s chain s' chain') (hop : ∀ v, op ≠ .purge v) :
    History (ops ++ [op]) s' chain' where
  fresh := fun i e he => by
    rw [hk.ent i e he]
    exact (h.fresh i e (hk.mem i e he)).concat hk.vId hop
  zero := fun v hv => by
    rw [hk.vId] at hv
    rw [List.mem_append, List.mem_singleton, not_or]
    exact ⟨h.zero v hv, fun heq => hop v heq.symm⟩

/-! ## Identifiers -/

/-- The entry is in the circle of a bucket. -/
def Hashed (s : State ν) (e : ℕ) : Prop :=
  ∃ h ≤ s.nchash.toNat, ∃ q : List ℕ, Ring s.hash (.bucket h) (q.map .entry) ∧ e ∈ q

/-- The next purge gives the vnode an identifier that an entry in a bucket still has for it, as its
directory or as what it names. -/
def Reuses (s : State ν) (v : ν) : Prop :=
  s.nextvnodeid + 1 ≠ 0 ∧ ∃ e, Hashed s e ∧
    ((s.ent e).ncDvp = some v ∧ (s.ent e).ncDvpid = s.nextvnodeid + 1 ∨
      (s.ent e).ncVp = some v ∧ (s.ent e).ncVpid = s.nextvnodeid + 1)

/-- No purge gives out an identifier that an entry still has for the vnode. -/
def NoReuse (s : State ν) : Op ν → Prop
  | .purge v => ¬Reuses s v
  | _ => True

theorem Inv.hashed {e h : ℕ} (hi : Inv s l chain) (he : e ∈ chain h) : Hashed s e :=
  ⟨h, hi.le_mask he, chain h, hi.ring h (hi.le_mask he), he⟩

theorem Inv.of_hashed {e : ℕ} (hi : Inv s l chain) (he : Hashed s e) : ∃ h, e ∈ chain h := by
  rcases he with ⟨h, hle, q, hring, heq⟩
  have hmap := hring.unique (hi.ring h hle)
  have hmem : Node.entry e ∈ (chain h).map Node.entry := hmap ▸ List.mem_map_of_mem heq
  rcases List.mem_map.mp hmem with ⟨f, hf, hfe⟩
  exact ⟨h, Node.entry.inj hfe ▸ hf⟩

theorem nextId_ne (s : State ν) : nextId s ≠ 0 := by
  rw [nextId]
  split
  next hwrap =>
    rw [hwrap]
    decide
  next hwrap => exact hwrap

section Runs

variable [DecidableEq ν]

theorem History.purge {v : ν} (hi : Inv s l chain) (h : History ops s chain) (hr : ¬Reuses s v) :
    ∃ s', cachePurge s v = .ok s' ∧ Inv s' l chain ∧ History (ops ++ [.purge v]) s' chain := by
  rcases hi.purge v with ⟨s', hok, hinv, hs'⟩
  have hid : s'.vId = Function.update s.vId v (nextId s) := by rw [hs']
  have hpast {w : ν} (hwv : w ≠ v) {post : List (Op ν)} (hp : .purge w ∉ post) :
      .purge w ∉ post ++ [Op.purge v] := by
    rw [List.mem_append, List.mem_singleton, not_or]
    exact ⟨hp, fun heq => hwv (Op.purge.inj heq)⟩
  refine ⟨s', hok, hinv, ⟨fun i e he => ?_, fun w hw => ?_⟩⟩
  · rcases h.fresh i e he with ⟨dvp, post, hdvp, hst, hd, hv⟩
    by_cases hwrap : s.nextvnodeid + 1 = 0
    · -- the entry forgets its identifiers
      have hent : s'.ent e = (s.ent e).clear := by
        rw [hs']
        simp only [if_pos hwrap, cleared]
        exact if_pos (mem_inBuckets.mpr ⟨i, Nat.lt_succ_of_le (hi.le_mask he), he⟩)
      rw [hent]
      have hnever {w : ν} (hw : 0 = s'.vId w) : .purge w ∉ post ++ [Op.purge v] := by
        rw [hid] at hw
        by_cases hwv : w = v
        · rw [hwv, Function.update_self] at hw
          exact absurd hw.symm (nextId_ne s)
        · rw [Function.update_of_ne hwv] at hw
          exact hpast hwv fun hm => h.zero w hw.symm (hst.subset hm)
      exact ⟨dvp, post ++ [.purge v], hdvp, hst.concat _, fun hcur => hnever hcur,
        fun w _ hcur => hnever hcur⟩
    · have hent : s'.ent e = s.ent e := by
        rw [hs']
        simp only [if_neg hwrap]
      have hnext : nextId s = s.nextvnodeid + 1 := if_neg hwrap
      rw [hent]
      refine ⟨dvp, post ++ [.purge v], hdvp, hst.concat _, fun hcur => ?_, fun w hw hcur => ?_⟩
      · by_cases hdv : dvp = v
        · rw [hid, hdv, Function.update_self, hnext] at hcur
          exact absurd ⟨hwrap, e, hi.hashed he, Or.inl ⟨hdv ▸ hdvp, hcur⟩⟩ hr
        · rw [hid, Function.update_of_ne hdv] at hcur
          exact hpast hdv (hd hcur)
      · by_cases hwv : w = v
        · rw [hid, hwv, Function.update_self, hnext] at hcur
          exact absurd ⟨hwrap, e, hi.hashed he, Or.inr ⟨hwv ▸ hw, hcur⟩⟩ hr
        · rw [hid, Function.update_of_ne hwv] at hcur
          exact hpast hwv (hv w hw hcur)
  · rw [hid] at hw
    by_cases hwv : w = v
    · rw [hwv, Function.update_self] at hw
      exact absurd hw (nextId_ne s)
    · rw [Function.update_of_ne hwv] at hw
      exact hpast hwv (h.zero w hw)

omit [DecidableEq ν] in
theorem History.enter {e n : ℕ} {lru : Queue ℕ} {hash : Links Node} {desiredvnodes : ℤ}
    {hlen : ndp.niName.length ≤ nchnamlen} (hi : Inv s l chain) (h : History ops s chain) :
    History (ops ++ [.enter desiredvnodes ndp hlen]) { s with
        numcache := n, ent := Function.update s.ent e (fill s ndp), lru := lru, hash := hash }
      (within (without chain e) (bucketOf s ndp.niName) e) where
  fresh := fun i f hf => by
    by_cases hfe : f = e
    · have hent : Function.update s.ent e (fill s ndp) f = fill s ndp := by
        rw [hfe, Function.update_self]
      change Fresh _ _ (Function.update s.ent e (fill s ndp) f)
      rw [hent]
      exact ⟨ndp.niDvp, [], rfl, ⟨ops, desiredvnodes, ndp, hlen, rfl, rfl, rfl, rfl⟩,
        fun _ => List.not_mem_nil, fun _ _ _ => List.not_mem_nil⟩
    · have hent : Function.update s.ent e (fill s ndp) f = s.ent f := Function.update_of_ne hfe _ _
      have hmem : f ∈ chain i := by
        rcases mem_within.mp hf with hf | ⟨-, heq⟩
        · exact (hi.mem_without.mp hf).2
        · exact absurd heq hfe
      change Fresh _ _ (Function.update s.ent e (fill s ndp) f)
      rw [hent]
      exact (h.fresh i f hmem).concat rfl nofun
  zero := fun v hv => by
    rw [List.mem_append, List.mem_singleton, not_or]
    exact ⟨h.zero v hv, nofun⟩

/-- Without purges that reuse an identifier, entries with current ones have not been purged. -/
theorem Run.history {nchash : BitVec 32} (h : Run NoReuse (nchinit nchash) ops s) :
    ∃ l chain, Inv s l chain ∧ History ops s chain := by
  induction h with
  | start => exact ⟨[], _, nchinit_inv nchash, ⟨fun _ _ he => (by cases he), fun _ _ => List.not_mem_nil⟩⟩
  | @step ops s s' op a _ hok hs ih =>
    rcases ih with ⟨l, chain, hi, hh⟩
    by_cases hlast : DropsLast s op
    · rw [hi.step_fault hlast] at hs
      cases hs
    cases op with
    | lookup ndp =>
      rcases hi.lookup ndp hlast with ⟨a', s'', l', chain', hl, hinv, hkeep, -⟩
      rw [NameCache.step, hl] at hs
      cases hs
      exact ⟨l', chain', hinv, hh.keeps hkeep (fun _ he => by cases he)⟩
    | enter d ndp hlen =>
      rcases hi.enter d ndp with ⟨s'', he, hsame | ⟨e, l', lru, hash, n, hs'', hinv⟩⟩
      · rw [NameCache.step, he] at hs
        cases hs
        rw [hsame]
        exact ⟨l, chain, hi, hh.keeps (Keeps.refl s chain) (fun _ he => by cases he)⟩
      · rw [NameCache.step, he] at hs
        cases hs
        subst hs''
        exact ⟨l', _, hinv, hh.enter hi⟩
    | purge v =>
      rcases hh.purge hi hok with ⟨s'', hp, hinv, hh'⟩
      rw [NameCache.step, hp] at hs
      cases hs
      exact ⟨l, chain, hinv, hh'⟩
    | purgevfs onMp =>
      rcases hi.purgevfs hlast with ⟨s'', l', chain', hp, hinv, hkeep⟩
      rw [NameCache.step, hp] at hs
      cases hs
      exact ⟨l', chain', hinv, hh.keeps hkeep (fun _ he => by cases he)⟩

/-- In a run without purges that reuse an identifier, what a lookup answers was entered, and not
purged since. -/
theorem cacheLookup_sound {nchash : BitVec 32} {a : Answer ν}
    (h : Run NoReuse (nchinit nchash) ops s) (hs : step s (.lookup ndp) = .ok (some a, s')) :
    Sound ops ndp a := by
  rcases h.history with ⟨l, chain, hi, hh⟩
  by_cases hlast : DropsLast s (.lookup ndp)
  · rw [hi.step_fault hlast] at hs
    cases hs
  rcases hi.lookup ndp hlast with ⟨a', s'', l', chain', hl, -, -, hans⟩
  rw [step, hl] at hs
  cases hs
  have hdir : a'.status ≠ 0 → ∃ e ∈ chain (bucketOf s ndp.niName), ∃ post,
      StoredBy ops ndp.niDvp ndp.niName (s.ent e).ncVp post ∧ .purge ndp.niDvp ∉ post ∧
        (∀ vp, (s.ent e).ncVp = some vp → .purge vp ∉ post) ∧
          (a'.status = -1 ∧ a'.niVp = (s.ent e).ncVp ∧ (s.ent e).ncVp ≠ none ∨
            a'.status = enoent ∧ (s.ent e).ncVp = none) := by
    intro hne
    rcases hans hne with ⟨e, he, hfor, huse, hcase⟩
    simp only [isFor, Bool.and_eq_true, decide_eq_true_eq] at hfor
    rcases hfor with ⟨⟨hdvp, hid⟩, hname⟩
    rcases hh.fresh _ e he with ⟨dvp, post, hdvp', hst, hd, hv⟩
    have heq : ndp.niDvp = dvp := Option.some.inj (hdvp.symm.trans hdvp')
    subst heq
    rw [hname] at hst
    refine ⟨e, he, post, hst, hd hid, fun vp hvp => hv vp hvp ?_, hcase⟩
    simp only [usable, hvp, Bool.and_eq_true, decide_eq_true_eq] at huse
    exact huse.2
  constructor
  · intro hhit
    rcases hdir (by rw [hhit]; decide) with ⟨e, -, post, hst, hd, hv, ⟨-, hvp, hsome⟩ | ⟨hno, -⟩⟩
    · rcases Option.ne_none_iff_exists'.mp hsome with ⟨vp, hvp'⟩
      rw [hvp'] at hst hvp
      exact ⟨vp, post, hvp, hst, hd, hv vp hvp'⟩
    · exact absurd (hhit.symm.trans hno : (-1 : ℤ) = enoent) (by decide)
  · intro habsent
    rcases hdir (by rw [habsent]; decide) with ⟨e, -, post, hst, hd, -, ⟨hhit, -, -⟩ | ⟨-, hnone⟩⟩
    · exact absurd (hhit.symm.trans habsent : (-1 : ℤ) = enoent) (by decide)
    · rw [hnone] at hst
      exact ⟨post, hst, hd⟩

/-- The name `a` in the directory 1 is entered for the vnode 2. -/
theorem enter_nameA : (nameA true).niName.length ≤ nchnamlen := by decide

/-- A lookup of the name `a` after it was entered. -/
theorem cacheLookup_sound_nameA : ∃ s s' : State ℕ,
    Run NoReuse (nchinit 0) [.enter 100 (nameA true) enter_nameA] s ∧
    step s (.lookup (nameA true)) = .ok (some ⟨-1, true, some 2⟩, s') ∧
      Sound [.enter 100 (nameA true) enter_nameA] (nameA true) ⟨-1, true, some 2⟩ := by
  have hs : step (nchinit 0) (.enter 100 (nameA true) enter_nameA) = .ok (none, _) := rfl
  have hrun : Run NoReuse (nchinit 0) [.enter 100 (nameA true) enter_nameA] _ :=
    .step .start trivial hs
  have hl : Sound _ (nameA true) ⟨-1, true, some 2⟩ := cacheLookup_sound hrun rfl
  exact ⟨_, _, hrun, rfl, hl⟩

/-! ## Before the counter wraps -/

/-- A purge does not wrap the counter. -/
def NoWrap (s : State ν) : Op ν → Prop
  | .purge _ => s.nextvnodeid + 1 ≠ 0
  | _ => True

/-- No identifier is ahead of the counter. -/
structure Ids (s : State ν) (chain : ℕ → List ℕ) : Prop where
  vId : ∀ v, s.vId v ≤ s.nextvnodeid
  ent : ∀ h, ∀ e ∈ chain h, (s.ent e).ncDvpid ≤ s.nextvnodeid ∧ (s.ent e).ncVpid ≤ s.nextvnodeid

omit [DecidableEq ν] in
theorem Ids.keeps {chain' : ℕ → List ℕ} (h : Ids s chain) (hk : Keeps s chain s' chain') :
    Ids s' chain' where
  vId := hk.vId ▸ hk.nextvnodeid ▸ h.vId
  ent := fun i e he => by
    rw [hk.ent i e he, hk.nextvnodeid]
    exact h.ent i e (hk.mem i e he)

theorem le_succ {x y : BitVec 32} (hle : y ≤ x) (h : x + 1 ≠ 0) : y ≤ x + 1 := by
  bv_omega

theorem ne_succ {x y : BitVec 32} (hle : y ≤ x) (h : x + 1 ≠ 0) : y ≠ x + 1 := by
  bv_omega

theorem Run.ids {nchash : BitVec 32} (h : Run NoWrap (nchinit nchash) ops s) :
    ∃ l chain, Inv s l chain ∧ Ids s chain := by
  induction h with
  | start => exact ⟨[], _, nchinit_inv nchash, ⟨fun _ => BitVec.le_refl _, fun _ _ he => (by cases he)⟩⟩
  | @step ops s s' op a _ hok hs ih =>
    rcases ih with ⟨l, chain, hi, hids⟩
    by_cases hlast : DropsLast s op
    · rw [hi.step_fault hlast] at hs
      cases hs
    cases op with
    | lookup ndp =>
      rcases hi.lookup ndp hlast with ⟨a', s'', l', chain', hl, hinv, hkeep, -⟩
      rw [NameCache.step, hl] at hs
      cases hs
      exact ⟨l', chain', hinv, hids.keeps hkeep⟩
    | enter d ndp hlen =>
      rcases hi.enter d ndp with ⟨s'', he, hsame | ⟨e, l', lru, hash, n, hs'', hinv⟩⟩
      · rw [NameCache.step, he] at hs
        cases hs
        exact ⟨l, chain, hsame ▸ hi, hsame ▸ hids⟩
      · rw [NameCache.step, he] at hs
        cases hs
        subst hs''
        refine ⟨l', _, hinv, hids.vId, fun i f hf => ?_⟩
        by_cases hfe : f = e
        · have hent : Function.update s.ent e (fill s ndp) f = fill s ndp := by
            rw [hfe, Function.update_self]
          change (Function.update s.ent e (fill s ndp) f).ncDvpid ≤ _ ∧
            (Function.update s.ent e (fill s ndp) f).ncVpid ≤ _
          rw [hent]
          refine ⟨hids.vId _, ?_⟩
          rw [fill]
          dsimp only
          split
          · bv_omega
          · exact hids.vId _
        · have hent : Function.update s.ent e (fill s ndp) f = s.ent f :=
            Function.update_of_ne hfe _ _
          have hmem : f ∈ chain i := by
            rcases mem_within.mp hf with hf | ⟨-, heq⟩
            · exact (hi.mem_without.mp hf).2
            · exact absurd heq hfe
          change (Function.update s.ent e (fill s ndp) f).ncDvpid ≤ _ ∧
            (Function.update s.ent e (fill s ndp) f).ncVpid ≤ _
          rw [hent]
          exact hids.ent i f hmem
    | purge v =>
      rcases hi.purge v with ⟨s'', hp, hinv, hs''⟩
      rw [NameCache.step, hp] at hs
      cases hs
      have hnext : nextId s = s.nextvnodeid + 1 := if_neg hok
      rw [if_neg hok, hnext] at hs''
      refine ⟨l, chain, hinv, fun w => ?_, fun i f hf => ?_⟩
      · rw [hs'']
        change Function.update s.vId v _ w ≤ s.nextvnodeid + 1
        by_cases hw : w = v
        · rw [hw, Function.update_self]
          exact BitVec.le_refl _
        · rw [Function.update_of_ne hw]
          exact le_succ (hids.vId w) hok
      · have hent := hids.ent i f hf
        rw [hs'']
        exact ⟨le_succ hent.1 hok, le_succ hent.2 hok⟩
    | purgevfs onMp =>
      rcases hi.purgevfs hlast with ⟨s'', l', chain', hp, hinv, hkeep⟩
      rw [NameCache.step, hp] at hs
      cases hs
      exact ⟨l', chain', hinv, hids.keeps hkeep⟩

/-- Before the counter wraps, no purge reuses an identifier. -/
theorem Run.noReuse {nchash : BitVec 32} (h : Run NoWrap (nchinit nchash) ops s) :
    Run NoReuse (nchinit nchash) ops s := by
  induction h with
  | start => exact .start
  | @step ops s s' op a hrun hok hs ih =>
    refine .step ih ?_ hs
    cases op with
    | purge v =>
      rintro ⟨hne, e, he, hold⟩
      rcases hrun.ids with ⟨l, chain, hi, hids⟩
      rcases hi.of_hashed he with ⟨i, hmem⟩
      have hent := hids.ent i e hmem
      rcases hold with ⟨-, heq⟩ | ⟨-, heq⟩
      · exact ne_succ hent.1 hne heq
      · exact ne_succ hent.2 hne heq
    | lookup ndp => trivial
    | enter d ndp hlen => trivial
    | purgevfs onMp => trivial

end Runs

/-! ## After it -/

/-- Purges of one vnode move the counter on and change nothing else but its identifier. -/
theorem run_purges [DecidableEq ν] {s₀ : State ν} (h : Run (fun _ _ => True) s₀ ops s) (v : ν) (n : ℕ)
    (hn : s.nextvnodeid.toNat + n < 2 ^ 32) :
    ∃ x, Run (fun _ _ => True) s₀ (ops ++ List.replicate n (.purge v))
      { s with nextvnodeid := s.nextvnodeid + BitVec.ofNat 32 n, vId := Function.update s.vId v x } := by
  induction n with
  | zero =>
    refine ⟨s.vId v, ?_⟩
    simpa using h
  | succ n ih =>
    rcases ih (by omega) with ⟨x, hrun⟩
    have hnext : s.nextvnodeid + BitVec.ofNat 32 n + 1 = s.nextvnodeid + BitVec.ofNat 32 (n + 1) := by
      rw [BitVec.ofNat_add, BitVec.add_assoc]
      rfl
    have hne : s.nextvnodeid + BitVec.ofNat 32 (n + 1) ≠ 0 := by
      intro hzero
      have hval := congrArg BitVec.toNat hzero
      rw [BitVec.toNat_add, BitVec.toNat_ofNat, Nat.add_mod_mod, Nat.mod_eq_of_lt hn] at hval
      change _ = 0 at hval
      omega
    refine ⟨s.nextvnodeid + BitVec.ofNat 32 (n + 1), ?_⟩
    rw [List.replicate_succ', ← List.append_assoc]
    refine .step hrun trivial (a := none) ?_
    rw [step, cachePurge]
    dsimp only
    rw [hnext, if_pos hne, Function.update_idem]
    rfl

/-- The cache at boot, with the counter at 1 and the identifiers of the vnodes 1 and 5. -/
def wrapped (id₁ id₅ : BitVec 32) : State ℕ :=
  { nchinit 0 with
    nextvnodeid := 1, vId := Function.update (Function.update (fun _ => 0) 1 id₁) 5 id₅ }

/-- At boot 5 and 1 are purged, and then 5 until the counter has wrapped. The identifier of 1 is 2
since. -/
theorem run_wrapped : ∃ ops, Run (fun _ _ => True) (nchinit 0) ops (wrapped 2 1) := by
  have h₁ : Run (fun _ _ => True) (nchinit 0) _ _ := .step .start trivial
    (show step (nchinit 0) (.purge 5) = .ok (none, _) from rfl)
  have h₂ := Run.step h₁ trivial (show step _ (.purge 1) = .ok (none, _) from rfl)
  rcases run_purges h₂ 5 4294967293 (by decide) with ⟨x, h₃⟩
  have hlast : (0 : BitVec 32) + 1 + 1 + BitVec.ofNat 32 4294967293 = 4294967295 := by decide
  dsimp only [nchinit] at h₃
  rw [hlast] at h₃
  refine ⟨_, @Run.step _ _ _ _ _ _ _ (.purge 5) none h₃ trivial ?_⟩
  have hv : Function.update (Function.update (Function.update (Function.update (Function.update
      (fun _ : ℕ => (0 : BitVec 32)) 5 1) 1 2) 5 x) 5 0) 5 1
        = Function.update (Function.update (fun _ => 0) 1 2) 5 1 := by
    rw [Function.update_idem, Function.update_idem, Function.update_comm (by decide : (5 : ℕ) ≠ 1),
      Function.update_idem]
  have hnext : (4294967295 : BitVec 32) + 1 = 0 := by decide
  rw [wrapped, ← hv, step, cachePurge]
  dsimp only
  rw [hnext]
  rfl

/-- The name `a` in 1 is entered when the counter has wrapped, and 1 is purged, which gives it the
identifier 2 once more: a lookup still finds the name. -/
theorem cacheLookup_not_sound : ¬∀ (nchash : BitVec 32) (ops : List (Op ℕ)) (s s' : State ℕ)
    (ndp : Nameidata ℕ) (a : Answer ℕ), Run (fun _ _ => True) (nchinit nchash) ops s →
      step s (.lookup ndp) = .ok (some a, s') → Sound ops ndp a := by
  intro h
  rcases run_wrapped with ⟨ops, hrun⟩
  have h₁ := Run.step hrun trivial
    (show step _ (.enter 100 (nameA true) enter_nameA) = .ok (none, _) from rfl)
  have h₂ := Run.step h₁ trivial (show step _ (.purge 1) = .ok (none, _) from rfl)
  have hs := h 0 _ _ _ (nameA true) ⟨-1, true, some 2⟩ h₂ rfl
  rcases hs.hit rfl with ⟨vp, post, -, ⟨pre, d, ndp, hlen, hops, -⟩, hpurge, -⟩
  apply hpurge
  -- the last call is the purge, so that it comes after every entering
  have hlast := congrArg List.getLast? hops
  rw [List.getLast?_concat, List.getLast?_append_cons] at hlast
  cases post with
  | nil => exact absurd (Option.some.inj hlast) nofun
  | cons o os =>
    rw [List.getLast?_cons_cons] at hlast
    exact List.mem_of_getLast? hlast.symm

end NameCache
