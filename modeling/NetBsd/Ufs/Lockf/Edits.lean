import NetBsd.Ufs.Lockf.Rep

/-!
# What an operation may change

An operation on the list of an inode edits it in a few ways: a lock is put in, written, or taken
out, a chain is woken, or passes to the lock that replaces another. Each is an `Edit`, and edits
compose; an `Edit` says what becomes of every other structure, chain and process.

## Main definitions

* `Stronger x y`: the lock `y` has the range of `x`, and whatever conflicts with `x` with it
* `Merges r x`: setting `r` takes over the chain of the lock `x`
* `Edit`: an edit of the lists and chains on behalf of the request `a`

## Main results

* `Edit.trans`: edits compose
* `Edit.insert`, `Edit.store`, `Edit.unlink`, `Edit.wake`, `Edit.absorb`: the edits
-/

namespace Lockf

open LinkedList Fault

/-- `y` has the range and the owner of `x`, and is exclusive where `x` is. -/
structure Stronger (x y : Lock) : Prop where
  id : y.lfId = x.lfId
  inode : y.lfInode = x.lfInode
  start_eq : y.lfStart = x.lfStart
  end_eq : y.lfEnd = x.lfEnd
  type : x.lfType = .wrlck → y.lfType = .wrlck

theorem Stronger.refl (x : Lock) : Stronger x x := ⟨rfl, rfl, rfl, rfl, fun h => h⟩

theorem Stronger.trans {x y z : Lock} (h : Stronger x y) (h' : Stronger y z) : Stronger x z where
  id := h'.id.trans h.id
  inode := h'.inode.trans h.inode
  start_eq := h'.start_eq.trans h.start_eq
  end_eq := h'.end_eq.trans h.end_eq
  type hx := h'.type (h.type hx)

/-- Setting the lock `r` replaces the own lock `x` without waking its chain. -/
structure Merges (r x : Lock) : Prop where
  id : x.lfId = r.lfId
  inode : x.lfInode = r.lfInode
  apart : ¬Apart x r
  within : classify x r = .ok .within
  type : ¬(r.lfType = .rdlck ∧ x.lfType = .wrlck)

theorem Merges.of_stronger {r x y : Lock} (h : Merges r y) (hxy : Stronger x y) : Merges r x where
  id := hxy.id.symm.trans h.id
  inode := hxy.inode.symm.trans h.inode
  apart := by
    have := h.apart
    rwa [Apart, hxy.start_eq, hxy.end_eq] at this
  within := by
    have := h.within
    rwa [classify, hxy.start_eq, hxy.end_eq] at this
  type := fun ⟨hr, hx⟩ => h.type ⟨hr, hxy.type hx⟩

/-- The lists `ls` and chains `ch` of `s` have become `ls'` and `ch'`, on behalf of the request
`r` at `a`, and the requests `W` were woken. -/
structure Edit (a : Addr) (r : Lock) (s : State) (ls : Ino → List Node) (ch : Addr → List Node)
    (W : List Addr) (s' : State) (ls' : Ino → List Node) (ch' : Addr → List Node) : Prop where
  rep : Rep s' ls' ch'
  listed : ∀ b, Listed ls' b → Listed ls b ∨ b = a
  lk : ∀ w, ¬Listed ls w → w ≠ a → s'.lk w = s.lk w
  next : ∀ w, ¬Listed ls w → w ≠ a →
    s'.links.next w = if w ∈ W then none else s.links.next w
  block : ∀ w, ¬Listed ls w → w ≠ a → ¬On ch' w →
    s'.block w = if w ∈ W then none else s.block w
  proc : s'.proc = wakeProc W s.proc
  on : ∀ w, On ch' w ↔ On ch w ∧ w ∉ W
  chain : ∀ j, ∀ n ∈ ls' j, ch' n.1 = [] ∨
    (∃ x, (n.1, x) ∈ ls j ∧ ch' n.1 = ch n.1 ∧ Stronger x n.2) ∨
    (n.1 = a ∧ ∃ k, ∃ m ∈ ls k, Merges r m.2 ∧ ch m.1 ≠ [])

variable {a b : Addr} {r x y : Lock} {s s' s'' : State} {ls ls' ls'' : Ino → List Node}
  {ch ch' ch'' : Addr → List Node} {W W' : List Addr} {i : Ino} {pre rest : List Node}

theorem wakeProc_nil (proc : Pid → Status) : wakeProc [] proc = proc := by
  funext p
  unfold wakeProc
  cases proc p <;> rfl

theorem wakeProc_append (proc : Pid → Status) :
    wakeProc (W ++ W') proc = wakeProc W' (wakeProc W proc) := by
  funext p
  unfold wakeProc
  cases proc p with
  | asleep w => by_cases hw : w ∈ W <;> simp [hw]
  | _ => rfl

theorem Edit.trans (h : Edit a r s ls ch W s' ls' ch') (h' : Edit a r s' ls' ch' W' s'' ls'' ch'') :
    Edit a r s ls ch (W ++ W') s'' ls'' ch'' := by
  have hun : ∀ w, ¬Listed ls w → w ≠ a → ¬Listed ls' w := fun w hw hwa hw' =>
    (h.listed w hw').elim hw hwa
  refine ⟨h'.rep, fun b hb => ?_, fun w hw hwa => ?_, fun w hw hwa => ?_, fun w hw hwa hon => ?_,
    ?_, fun w => ?_, fun j n hn => ?_⟩
  · rcases h'.listed b hb with hb | hb
    · exact h.listed b hb
    · exact .inr hb
  · rw [h'.lk w (hun w hw hwa) hwa, h.lk w hw hwa]
  · rw [h'.next w (hun w hw hwa) hwa, h.next w hw hwa]
    by_cases h₁ : w ∈ W <;> by_cases h₂ : w ∈ W' <;> simp [h₁, h₂]
  · rw [h'.block w (hun w hw hwa) hwa hon]
    by_cases h₂ : w ∈ W'
    · simp [h₂]
    · have hon' : ¬On ch' w := fun hon' => hon ((h'.on w).mpr ⟨hon', h₂⟩)
      rw [h.block w hw hwa hon']
      by_cases h₁ : w ∈ W <;> simp [h₁, h₂]
  · rw [h'.proc, h.proc, wakeProc_append]
  · rw [h'.on, h.on, List.mem_append]
    tauto
  · rcases h'.chain j n hn with hc | ⟨x, hx, hc, hs⟩ | ⟨hna, k, m, hm, hmr, hmc⟩
    · exact .inl hc
    · rcases h.chain j _ hx with hc' | ⟨x', hx', hc', hs'⟩ | hmerge
      · exact .inl (hc.trans hc')
      · exact .inr (.inl ⟨x', hx', hc.trans hc', hs'.trans hs⟩)
      · exact .inr (.inr hmerge)
    · rcases h.chain k m hm with hc' | ⟨x', hx', hc', hs'⟩ | hmerge
      · exact absurd hc' hmc
      · exact .inr (.inr ⟨hna, k, _, hx', hmr.of_stronger hs', by rwa [← hc']⟩)
      · exact .inr (.inr ⟨hna, hmerge.2⟩)

/-- An edit that changes no chain. -/
theorem Edit.of_rep (h : Rep s' ls' ch) (hlisted : ∀ b, Listed ls' b → Listed ls b ∨ b = a)
    (hlk : ∀ w, ¬Listed ls w → w ≠ a → s'.lk w = s.lk w)
    (hnext : ∀ w, ¬Listed ls w → w ≠ a → s'.links.next w = s.links.next w)
    (hblock : s'.block = s.block) (hproc : s'.proc = s.proc)
    (hchain : ∀ j, ∀ n ∈ ls' j, ch n.1 = [] ∨ ∃ x, (n.1, x) ∈ ls j ∧ Stronger x n.2) :
    Edit a r s ls ch [] s' ls' ch where
  rep := h
  listed := hlisted
  lk := hlk
  next w hw hwa := by simpa using hnext w hw hwa
  block w _ _ _ := by simp [hblock]
  proc := by rw [hproc, wakeProc_nil]
  on w := by simp
  chain j n hn := (hchain j n hn).imp_right fun ⟨x, hx, hs⟩ => .inl ⟨x, hx, rfl, hs⟩

theorem Edit.refl (h : Rep s ls ch) : Edit a r s ls ch [] s ls ch :=
  .of_rep h (fun _ => .inl) (fun _ _ _ => rfl) (fun _ _ _ => rfl) rfl rfl
    fun _ n hn => .inr ⟨n.2, hn, .refl _⟩

theorem next_set_last (hi : ls i = pre ++ rest) {w : Addr} (hw : ¬Listed ls w) (p : Option Addr) :
    (s.links.set (last (.head i) pre) p).next w = s.links.next w := by
  refine next_set_of_ne (last_ne_next_new fun hwp => hw ⟨i, ?_⟩) p
  rw [hi, addrs, List.map_append]
  exact List.mem_append_left _ hwp

theorem mem_update_list {l : List Node} {j : Ino} {n : Node}
    (hn : n ∈ Function.update ls i l j) : (j = i ∧ n ∈ l) ∨ (j ≠ i ∧ n ∈ ls j) := by
  rcases eq_or_ne j i with rfl | hne
  · rw [Function.update_self] at hn
    exact .inl ⟨rfl, hn⟩
  · rw [Function.update_of_ne hne] at hn
    exact .inr ⟨hne, hn⟩

theorem Edit.insert (h : Rep s ls ch) (hi : ls i = pre ++ rest) (ha : ¬Listed ls a)
    (hon : ¬On ch a) (hr : s.lk a = some r) (hri : r.lfInode = i) (hb : s.block a = none) :
    Edit a r s ls ch [] ((s.setLink (last (.head i) pre) (some a)).setLink (.next a)
        (s.links.get (last (.head i) pre)))
      (Function.update ls i (pre ++ (a, r) :: rest)) ch := by
  refine .of_rep (h.insert hi ha hon hr hri hb) (fun b hb => ?_) (fun _ _ _ => rfl)
    (fun w hw hwa => ?_) rfl rfl fun j n hn => ?_
  · rcases listed_update.mp hb with hb | ⟨j, -, hb⟩
    · simp only [addrs, List.map_append, List.map_cons, List.mem_append, List.mem_cons] at hb
      have : b ∈ addrs (ls i) ∨ b = a := by
        simp only [hi, addrs, List.map_append, List.mem_append]
        tauto
      exact this.imp_left fun hb => ⟨i, hb⟩
    · exact .inl ⟨j, hb⟩
  · rw [State.setLink, next_set_of_ne fun he => hwa (Ref.next.inj he).symm]
    exact next_set_last hi hw _
  · replace hn := mem_update_list hn
    rcases hn with ⟨rfl, hn⟩ | ⟨-, hn⟩
    · rcases List.mem_append.mp hn with hn | hn
      · exact .inr ⟨n.2, by rw [hi]; exact List.mem_append_left _ hn, .refl _⟩
      · rcases List.mem_cons.mp hn with rfl | hn
        · exact .inl (h.nil a ha)
        · exact .inr ⟨n.2, by rw [hi]; exact List.mem_append_right _ hn, .refl _⟩
    · exact .inr ⟨n.2, hn, .refl _⟩

/-- A lock is written: its range may change only where nobody waits for it. -/
theorem Edit.store (h : Rep s ls ch) (hi : ls i = pre ++ (b, x) :: rest) (hy : y.lfInode = i)
    (hk : ch b = [] ∨ Stronger x y) :
    Edit a r s ls ch [] (s.setLk b y) (Function.update ls i (pre ++ (b, y) :: rest)) ch := by
  have hb : Listed ls b := ⟨i, by simp [hi]⟩
  refine .of_rep (h.store hi hy) (fun c hc => .inl ?_) (fun w hw _ => ?_) (fun _ _ _ => rfl) rfl
    rfl fun j n hn => ?_
  · exact (listed_iff_of_eq (by simp [hi])).mp hc
  · exact Function.update_of_ne (fun he => hw (by rwa [he])) _ _
  · replace hn := mem_update_list hn
    rcases hn with ⟨rfl, hn⟩ | ⟨-, hn⟩
    · rcases List.mem_append.mp hn with hn | hn
      · exact .inr ⟨n.2, by rw [hi]; exact List.mem_append_left _ hn, .refl _⟩
      · rcases List.mem_cons.mp hn with rfl | hn
        · exact hk.imp_right fun hk => ⟨x, by simp [hi], hk⟩
        · exact .inr ⟨n.2, by simp [hi, hn], .refl _⟩
    · exact .inr ⟨n.2, hn, .refl _⟩

theorem Edit.unlink (h : Rep s ls ch) (hi : ls i = pre ++ (b, x) :: rest) (hch : ch b = []) :
    Edit a r s ls ch [] ((s.setLink (last (.head i) pre) (s.links.next b)).free b)
      (Function.update ls i (pre ++ rest)) ch := by
  have hb : Listed ls b := ⟨i, by simp [hi]⟩
  have hsub : ∀ n ∈ pre ++ rest, n ∈ ls i := by
    intro n hn
    rw [hi]
    exact (List.mem_append.mp hn).elim (List.mem_append_left _) fun hn =>
      List.mem_append_right _ (List.mem_cons_of_mem _ hn)
  refine .of_rep (h.unlink hi hch) (fun c hc => .inl ?_) (fun w hw _ => ?_)
    (fun w hw _ => next_set_last hi hw _) rfl rfl fun j n hn => ?_
  · rcases listed_update.mp hc with hc | ⟨j, -, hc⟩
    · exact ⟨i, mem_addrs.mpr ((mem_addrs.mp hc).imp fun _ => hsub _)⟩
    · exact ⟨j, hc⟩
  · exact Function.update_of_ne (fun he => hw (by rwa [he])) _ _
  · replace hn := mem_update_list hn
    rcases hn with ⟨rfl, hn⟩ | ⟨-, hn⟩
    · exact .inr ⟨n.2, hsub n hn, .refl _⟩
    · exact .inr ⟨n.2, hn, .refl _⟩

/-- The request is written or freed while it is on no list. -/
theorem Edit.write (h : Rep s ls ch) (ha : ¬Listed ls a) (hon : ¬On ch a) (p : Option Lock) :
    Edit a r s ls ch [] { s with lk := Function.update s.lk a p } ls ch :=
  .of_rep (h.write ha hon p) (fun _ => .inl) (fun _ _ hwa => Function.update_of_ne hwa _ _)
    (fun _ _ _ => rfl) rfl rfl fun _ n hn => .inr ⟨n.2, hn, .refl _⟩

/-- The link of the request is written while it is on no list. -/
theorem Edit.link (h : Rep s ls ch) (ha : ¬Listed ls a) (p : Option Addr) :
    Edit a r s ls ch [] (s.setLink (.next a) p) ls ch :=
  .of_rep (h.link ha p) (fun _ => .inl) (fun _ _ _ => rfl)
    (fun _ _ hwa => next_set_of_ne (fun he => hwa (Ref.next.inj he).symm) _) rfl rfl
    fun _ n hn => .inr ⟨n.2, hn, .refl _⟩

theorem Edit.wake (h : Rep s ls ch) (hb : Listed ls b) :
    Edit a r s ls ch (addrs (ch b)) ((s.setBlock b none).woken (addrs (ch b))) ls
      (Function.update ch b []) := by
  have hon : ∀ w, On (Function.update ch b []) w ↔ On ch w ∧ w ∉ addrs (ch b) := by
    intro w
    constructor
    · rintro ⟨c, hc⟩
      rcases eq_or_ne c b with rfl | hne
      · rw [Function.update_self] at hc
        cases hc
      · rw [Function.update_of_ne hne] at hc
        exact ⟨⟨c, hc⟩, fun hw => hne (h.disj c b w hc hw)⟩
    · rintro ⟨⟨c, hc⟩, hw⟩
      have hne : c ≠ b := fun he => hw (he ▸ hc)
      exact ⟨c, by rwa [Function.update_of_ne hne]⟩
  refine ⟨h.wake hb, fun _ => .inl, fun _ _ _ => rfl, fun _ _ _ => rfl, fun w hw _ _ => ?_, rfl,
    hon, fun j n hn => ?_⟩
  · show (if w ∈ addrs (ch b) then none else Function.update s.block b none w) = _
    rw [Function.update_of_ne fun he => hw (by rwa [he])]
  · rcases eq_or_ne n.1 b with he | hne
    · exact .inl (by rw [he, Function.update_self])
    · exact .inr (.inl ⟨n.2, hn, Function.update_of_ne hne _ _, .refl _⟩)

/-- The chain of `b` passes to the lock `a`, in front of its own, and `b` leaves the list. -/
theorem Edit.absorb (h : Rep s ls ch) (hi : ls i = pre ++ (b, x) :: rest) (ha : Listed ls a)
    (hab : a ≠ b) (hk : ch b = [] ∨ Merges r x) {block : Addr → Option Addr}
    (hchain : Lst s.lk block (block a) (ch b ++ ch a))
    (hblock : ∀ c, c ≠ a → c ∉ addrs (ch b) → block c = s.block c) :
    Edit a r s ls ch []
      ({ s.setLink (last (.head i) pre) (s.links.next b) with block := block }.free b)
      (Function.update ls i (pre ++ rest))
      (Function.update (Function.update ch b []) a (ch b ++ ch a)) := by
  have hb : Listed ls b := ⟨i, by simp [hi]⟩
  have hsub : ∀ n ∈ pre ++ rest, n ∈ ls i := by
    intro n hn
    rw [hi]
    exact (List.mem_append.mp hn).elim (List.mem_append_left _) fun hn =>
      List.mem_append_right _ (List.mem_cons_of_mem _ hn)
  have hon : ∀ w, On (Function.update (Function.update ch b []) a (ch b ++ ch a)) w ↔ On ch w := by
    intro w
    constructor
    · rintro ⟨c, hc⟩
      rcases eq_or_ne c a with rfl | hca
      · rw [Function.update_self, addrs, List.map_append, List.mem_append] at hc
        exact hc.elim (fun hc => ⟨b, hc⟩) fun hc => ⟨c, hc⟩
      · rw [Function.update_of_ne hca] at hc
        rcases eq_or_ne c b with rfl | hcb
        · rw [Function.update_self] at hc
          cases hc
        · rw [Function.update_of_ne hcb] at hc
          exact ⟨c, hc⟩
    · rintro ⟨c, hc⟩
      by_cases hcab : c = a ∨ c = b
      · refine ⟨a, ?_⟩
        rw [Function.update_self, addrs, List.map_append, List.mem_append]
        rcases hcab with rfl | rfl
        · exact .inr hc
        · exact .inl hc
      · rw [not_or] at hcab
        exact ⟨c, by rwa [Function.update_of_ne hcab.1, Function.update_of_ne hcab.2]⟩
  refine ⟨h.absorb hi ha hab hchain hblock, fun c hc => .inl ?_, fun w hw _ => ?_,
    fun w hw _ => ?_, fun w hw hwa hwon => ?_, (wakeProc_nil _).symm, fun w => by simp [hon],
    fun j n hn => ?_⟩
  · rcases listed_update.mp hc with hc | ⟨j, -, hc⟩
    · exact ⟨i, mem_addrs.mpr ((mem_addrs.mp hc).imp fun _ => hsub _)⟩
    · exact ⟨j, hc⟩
  · exact Function.update_of_ne (fun he => hw (by rwa [he])) _ _
  · exact next_set_last hi hw _
  · exact hblock w hwa fun hw' => hwon ((hon w).mpr ⟨b, hw'⟩)
  · have hnl : n ∈ ls j ∧ n.1 ≠ b := by
      replace hn := mem_update_list hn
      rcases hn with ⟨rfl, hn⟩ | ⟨hj, hn⟩
      · exact ⟨hsub n hn, fun he => h.not_mem hi (mem_addrs.mpr ⟨n.2, by rwa [← he]⟩)⟩
      · exact ⟨hn, fun he => hj (h.inode_eq (mem_addrs.mpr ⟨n.2, hn⟩)
          (show n.1 ∈ addrs (ls i) by rw [he]; simp [hi]))⟩
    rcases eq_or_ne n.1 a with hna | hna
    · rcases eq_or_ne (ch b) [] with hcb | hcb
      · refine .inr (.inl ⟨n.2, hnl.1, ?_, .refl _⟩)
        rw [hna, Function.update_self, hcb, List.nil_append]
      · exact .inr (.inr ⟨hna, i, (b, x), by simp [hi], hk.resolve_left hcb, hcb⟩)
    · refine .inr (.inl ⟨n.2, hnl.1, ?_, .refl _⟩)
      rw [Function.update_of_ne hna, Function.update_of_ne hnl.2]

/-! ## Edits in the words of the code -/

theorem Rep.get_last (h : Rep s ls ch) (hi : ls i = pre ++ rest) :
    s.links.get (last (.head i) pre) = first rest := by
  have hl := h.lst i
  rw [hi] at hl
  exact (lst_append (r := .head i) |>.mp hl).2.eq_first

theorem Rep.next_eq (h : Rep s ls ch) (hi : ls i = pre ++ (b, x) :: rest) :
    s.links.next b = first rest := by
  have hl := h.lst i
  rw [hi] at hl
  exact hl.of_append.2.eq_first

/-- `a->lf_next = b->lf_next; b->lf_next = a`. -/
theorem Edit.insertAfter (h : Rep s ls ch) (hi : ls i = pre ++ (b, x) :: rest)
    (ha : ¬Listed ls a) (hon : ¬On ch a) (hr : s.lk a = some r) (hri : r.lfInode = i)
    (hb : s.block a = none) :
    Edit a r s ls ch [] ((s.setLink (.next a) (s.links.next b)).setLink (.next b) (some a))
      (Function.update ls i (pre ++ (b, x) :: (a, r) :: rest)) ch := by
  have hab : (Ref.next a : Ref Ino Addr) ≠ .next b := fun he => ha ⟨i, by
    rw [Ref.next.inj he]
    simp [hi]⟩
  have := Edit.insert h (hi.trans (List.append_cons ..)) ha hon hr hri hb
  rw [last_concat] at this
  simp only [List.append_assoc, List.singleton_append] at this
  have hcomm : (s.setLink (.next a) (s.links.next b)).setLink (.next b) (some a) =
      (s.setLink (.next b) (some a)).setLink (.next a) (s.links.get (.next b)) :=
    State.ext rfl (Links.set_comm hab _ _ _) rfl rfl
  rw [hcomm]
  exact this

/-- `*prev = a; a->lf_next = b->lf_next`, and `b` is freed: `a` replaces `b` and takes over its
chain. -/
theorem Edit.supplant (h : Rep s ls ch) (hi : ls i = pre ++ (b, x) :: rest)
    (ha : ¬Listed ls a) (hon : ¬On ch a) (hr : s.lk a = some r) (hri : r.lfInode = i)
    (hb : s.block a = none) (hk : ch b = [] ∨ Merges r x) {block : Addr → Option Addr}
    (hchain : Lst s.lk block (block a) (ch b ++ ch a))
    (hblock : ∀ c, c ≠ a → c ∉ addrs (ch b) → block c = s.block c) :
    Edit a r s ls ch []
      ((({ s with block := block }.setLink (last (.head i) pre) (some a)).setLink (.next a)
        (s.links.next b)).free b)
      (Function.update ls i (pre ++ (a, r) :: rest))
      (Function.update (Function.update ch b []) a (ch b ++ ch a)) := by
  have hins := Edit.insert h hi ha hon hr hri hb
  have hab : a ≠ b := fun he => ha ⟨i, by simp [hi, he]⟩
  have hi' : Function.update ls i (pre ++ (a, r) :: (b, x) :: rest) i =
      (pre ++ [(a, r)]) ++ (b, x) :: rest := by
    rw [Function.update_self]
    simp
  have habs := Edit.absorb (a := a) (r := r) hins.rep hi' ⟨i, by simp⟩ hab hk hchain hblock
  have htrans := hins.trans habs
  rw [Function.update_idem, last_concat] at htrans
  simp only [List.append_assoc, List.singleton_append, List.nil_append] at htrans
  have hnext : ((s.setLink (last (.head i) pre) (some a)).setLink (.next a)
      (s.links.get (last (.head i) pre))).links.next b = s.links.next b :=
    (hins.rep.next_eq hi').trans (h.next_eq hi).symm
  rw [hnext] at htrans
  have hlinks : ((s.links.set (last (.head i) pre) (some a)).set (.next a)
      (s.links.get (last (.head i) pre))).set (.next a) (s.links.next b) =
      (s.links.set (last (.head i) pre) (some a)).set (.next a) (s.links.next b) :=
    Links.set_set _ _ _ _
  have hstate : ((({ s with block := block }.setLink (last (.head i) pre) (some a)).setLink
      (.next a) (s.links.next b)).free b) =
      ({ (((s.setLink (last (.head i) pre) (some a)).setLink (.next a)
        (s.links.get (last (.head i) pre))).setLink (.next a) (s.links.next b)) with
          block := block }.free b) :=
    State.ext rfl hlinks.symm rfl rfl
  rw [hstate]
  exact htrans

/-- A lock is written and its chain woken. -/
theorem lfWakelock_store (h : Rep s ls ch) (hi : ls i = pre ++ (b, x) :: rest)
    (hy : y.lfInode = i) {n : ℕ} :
    Meets (n < (ch b).length) (lfWakelock (s.setLk b y) n b) fun s' =>
      Edit a r s ls ch (addrs (ch b)) s' (Function.update ls i (pre ++ (b, y) :: rest))
        (Function.update ch b []) := by
  have hb : Listed ls b := ⟨i, by simp [hi]⟩
  have hb' : Listed (Function.update ls i (pre ++ (b, y) :: rest)) b :=
    (listed_iff_of_eq (by simp [hi])).mpr hb
  refine (lfWakelock_meets (h.store hi hy) hb').imp fun s' hs' => ?_
  have hwake := Edit.wake (a := a) (r := r) h hb
  have hstore := Edit.store (a := a) (r := r) hwake.rep hi hy (.inl (Function.update_self _ _ _))
  have := hwake.trans hstore
  rw [List.append_nil] at this
  rw [hs']
  exact this

/-- The chain of `b` is put in front of the chain of `a`. -/
theorem lfAddblock_meets (h : Rep s ls ch) (hb : Listed ls b) (hab : a ≠ b) (hon : ¬On ch a)
    (ha : s.lk a = some r) (hca : Lst s.lk s.block (s.block a) (ch a)) {n : ℕ} :
    Meets (n ≤ (ch b).length) (lfAddblock (s.setBlock a (s.block b)) n a (s.block a)) fun s' =>
      ∃ block, s' = { s with block := block } ∧ Lst s.lk block (block a) (ch b ++ ch a) ∧
        ∀ c, c ≠ a → c ∉ addrs (ch b) → block c = s.block c := by
  have hne : ∀ c, c ≠ a → Function.update s.block a (s.block b) c = s.block c := fun c hc =>
    Function.update_of_ne hc _ _
  have hanot : ∀ d, a ∉ addrs (ch d) := fun d hd => hon ⟨d, hd⟩
  have hchain : Lst s.lk (Function.update s.block a (s.block b))
      (Function.update s.block a (s.block b) a) (ch b) := by
    rw [Function.update_self]
    exact (h.chain b hb).congr (fun w hw => hne w fun he => hanot b (he ▸ hw)) fun _ _ => rfl
  rcases hq : s.block a with - | q
  · rw [hq] at hca
    have hcnil : ch a = [] := by
      cases hc : ch a with
      | nil => rfl
      | cons k l =>
        rw [hc] at hca
        cases hca.1
    refine ⟨_, rfl, ?_, fun c hc _ => hne c hc⟩
    rw [hcnil, List.append_nil]
    exact hchain
  · refine (addblockFrom_meets (s := s.setBlock a (s.block b)) ha hchain).imp fun s' hs' => ?_
    rw [hq] at hca
    have hca' : Lst s.lk (Function.update s.block a (s.block b)) (some q) (ch a) :=
      hca.congr (fun w hw => hne w fun he => hanot a (he ▸ hw)) fun _ _ => rfl
    refine ⟨_, hs', ?_, fun c hc hcb => ?_⟩
    · exact hchain.extend (hanot b) hca' fun w hw =>
        ⟨fun he => hanot a (he ▸ hw), fun hwb => hab (h.disj a b w hw hwb)⟩
    · refine (Function.update_of_ne (fun he => ?_) _ _).trans (hne c hc)
      rcases lastOf_eq_or_mem a (ch b) with hl | hl
      · exact hc (he.trans hl)
      · exact hcb (he ▸ hl)

end Lockf
