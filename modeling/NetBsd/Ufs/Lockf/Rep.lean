import Mathlib
import NetBsd.Ufs.Lockf.Ranges

/-!
# The lists and the chains behind the pointers

Every inode has a list of locks, and every lock on it a chain of blocked requests. The edits of
the code, one pointer write at a time, are edits of these lists.

## Main definitions

* `Rep s ls ch`: the pointers of the state are the lists `ls` and the chains `ch`
* `State.woken`: the state after a chain has been woken

## Main results

* `Rep.insert`, `Rep.unlink`, `Rep.store`: the edits of the list of an inode
* `Rep.wake`, `Rep.absorb`: a chain is woken, or passes to the lock that replaces another
* `lfWakelock_meets`, `lfAddblock_meets`: the two loops over a chain
-/

namespace Lockf

open LinkedList Fault

/-- `b` is a lock on the list of some inode. -/
def Listed (ls : Ino → List Node) (b : Addr) : Prop := ∃ i, b ∈ addrs (ls i)

/-- `w` is on the chain of some lock. -/
def On (ch : Addr → List Node) (w : Addr) : Prop := ∃ b, w ∈ addrs (ch b)

/-- The pointers of the state are these lists of locks and these chains of requests. -/
structure Rep (s : State) (ls : Ino → List Node) (ch : Addr → List Node) : Prop where
  lst : ∀ i, Lst s.lk s.links.next (s.links.head i) (ls i)
  inode : ∀ i, ∀ n ∈ ls i, n.2.lfInode = i
  chain : ∀ b, Listed ls b → Lst s.lk s.block (s.block b) (ch b)
  nil : ∀ b, ¬Listed ls b → ch b = []
  waiter : ∀ b, ∀ w ∈ addrs (ch b), ¬Listed ls w
  disj : ∀ b b' w, w ∈ addrs (ch b) → w ∈ addrs (ch b') → b = b'

/-- The processes after those that sleep on the requests `W` were made runnable. -/
def wakeProc (W : List Addr) (proc : Pid → Status) (p : Pid) : Status :=
  match proc p with
  | .asleep w => if w ∈ W then .ready w else .asleep w
  | st => st

/-- The state after the requests `W` were taken off their chain and woken. -/
def State.woken (s : State) (W : List Addr) : State where
  lk := s.lk
  links := ⟨s.links.head, fun w => if w ∈ W then none else s.links.next w⟩
  block := fun w => if w ∈ W then none else s.block w
  proc := wakeProc W s.proc

variable {s : State} {ls : Ino → List Node} {ch : Addr → List Node} {i j : Ino} {a b w : Addr}
  {x y r : Lock} {l pre rest : List Node}

/-! ## Where the structures are -/

theorem Rep.listed_iff (h : Rep s ls ch) : Listed ls b ↔
    ∃ x, s.lk b = some x ∧ (b, x) ∈ ls x.lfInode := by
  constructor
  · rintro ⟨i, hb⟩
    obtain ⟨x, hx⟩ := mem_addrs.mp hb
    refine ⟨x, (h.lst i).val_eq hx, ?_⟩
    rwa [h.inode i _ hx]
  · rintro ⟨x, -, hx⟩
    exact ⟨_, mem_addrs.mpr ⟨x, hx⟩⟩

theorem Rep.lk_eq (h : Rep s ls ch) (hx : (b, x) ∈ ls i) : s.lk b = some x := (h.lst i).val_eq hx

/-- A lock is on the list of one inode. -/
theorem Rep.inode_eq (h : Rep s ls ch) (hb : b ∈ addrs (ls i)) (hb' : b ∈ addrs (ls j)) :
    i = j := by
  obtain ⟨x, hx⟩ := mem_addrs.mp hb
  obtain ⟨x', hx'⟩ := mem_addrs.mp hb'
  have : x = x' := Option.some.inj ((h.lk_eq hx).symm.trans (h.lk_eq hx'))
  rw [← h.inode i _ hx, ← h.inode j _ hx', this]

theorem Rep.nodup (h : Rep s ls ch) (i : Ino) : (addrs (ls i)).Nodup := (h.lst i).nodup

theorem Rep.not_on (h : Rep s ls ch) (hb : Listed ls b) : ¬On ch b := fun ⟨c, hc⟩ =>
  h.waiter c b hc hb

theorem Rep.lk_of_on (h : Rep s ls ch) (hw : On ch w) : ∃ x, s.lk w = some x := by
  obtain ⟨b, hb⟩ := hw
  have hl : Listed ls b := by
    by_contra hn
    rw [h.nil b hn] at hb
    cases hb
  obtain ⟨x, hx⟩ := mem_addrs.mp hb
  exact ⟨x, (h.chain b hl).val_eq hx⟩

theorem listed_update {l : List Node} :
    Listed (Function.update ls i l) b ↔ b ∈ addrs l ∨ ∃ j ≠ i, b ∈ addrs (ls j) := by
  constructor
  · rintro ⟨j, hj⟩
    rcases eq_or_ne j i with rfl | hne
    · rw [Function.update_self] at hj
      exact .inl hj
    · rw [Function.update_of_ne hne] at hj
      exact .inr ⟨j, hne, hj⟩
  · rintro (h | ⟨j, hne, hj⟩)
    · exact ⟨i, by rwa [Function.update_self]⟩
    · exact ⟨j, by rwa [Function.update_of_ne hne]⟩

theorem listed_iff_of_eq (h : addrs l = addrs (ls i)) :
    Listed (Function.update ls i l) b ↔ Listed ls b := by
  rw [listed_update, h]
  constructor
  · rintro (h | ⟨j, -, hj⟩)
    · exact ⟨i, h⟩
    · exact ⟨j, hj⟩
  · rintro ⟨j, hj⟩
    rcases eq_or_ne j i with rfl | hne
    · exact .inl hj
    · exact .inr ⟨j, hne, hj⟩

/-! ## Edits of a list -/

/-- What an edit of the list of an inode has to leave alone. -/
theorem Rep.edit (h : Rep s ls ch) {s' : State} (hl : Lst s'.lk s'.links.next (s'.links.head i) l)
    (hi : ∀ n ∈ l, n.2.lfInode = i) (hb : s'.block = s.block)
    (hhead : ∀ j ≠ i, s'.links.head j = s.links.head j)
    (hnext : ∀ j ≠ i, ∀ b ∈ addrs (ls j), s'.links.next b = s.links.next b ∧ s'.lk b = s.lk b)
    (hon : ∀ w, On ch w → s'.lk w = s.lk w ∧ w ∉ addrs l)
    (hnew : ∀ b ∈ addrs l, b ∉ addrs (ls i) → ch b = [] ∧ s.block b = none)
    (hold : ∀ b ∈ addrs (ls i), b ∉ addrs l → ch b = []) :
    Rep s' (Function.update ls i l) ch := by
  refine ⟨fun j => ?_, fun j => ?_, fun b hbl => ?_, fun b hbl => ?_, fun b w hw hwl => ?_, h.disj⟩
  · rcases eq_or_ne j i with rfl | hne
    · rwa [Function.update_self]
    · rw [Function.update_of_ne hne, hhead j hne]
      exact (h.lst j).congr (fun b hb => (hnext j hne b hb).1) fun b hb => (hnext j hne b hb).2
  · rcases eq_or_ne j i with rfl | hne
    · rwa [Function.update_self]
    · rw [Function.update_of_ne hne]
      exact h.inode j
  · rw [hb]
    by_cases hbl' : Listed ls b
    · exact (h.chain b hbl').congr (fun _ _ => rfl) fun w hw => (hon w ⟨b, hw⟩).1
    · have hbl := (listed_update.mp hbl).resolve_right fun ⟨j, _, hj⟩ => hbl' ⟨j, hj⟩
      obtain ⟨h₁, h₂⟩ := hnew b hbl fun hb => hbl' ⟨i, hb⟩
      rw [h₁, h₂]
      rfl
  · rw [listed_update, not_or] at hbl
    by_cases hbi : b ∈ addrs (ls i)
    · exact hold b hbi hbl.1
    · refine h.nil b fun ⟨j, hj⟩ => ?_
      rcases eq_or_ne j i with rfl | hne
      · exact hbi hj
      · exact hbl.2 ⟨j, hne, hj⟩
  · rcases listed_update.mp hwl with hw' | ⟨j, -, hj⟩
    · exact (hon w ⟨b, hw⟩).2 hw'
    · exact h.waiter b w hw ⟨j, hj⟩

/-- The node before a place of the list of `i` is on no other list. -/
theorem Rep.last_ne (h : Rep s ls ch) (hi : ls i = pre ++ rest) (hj : j ≠ i)
    (hb : b ∈ addrs (ls j)) : last (.head i : Ref Ino Addr) pre ≠ .next b := by
  refine last_ne_next_new fun hbp => hj (h.inode_eq hb ?_)
  rw [hi, addrs, List.map_append]
  exact List.mem_append_left _ hbp

theorem head_set_last (hj : j ≠ i) (p : Option Addr) :
    (s.links.set (last (.head i) pre) p).head j = s.links.head j := by
  have hne : last (.head i : Ref Ino Addr) pre ≠ .head j := by
    cases pre with
    | nil => exact fun h => hj (Ref.head.inj h).symm
    | cons n pre =>
      obtain ⟨b, -, he⟩ := last_mem (ι := Ino) n.1 n.2 pre
      rw [show last (.head i : Ref Ino Addr) (n :: pre) = last (.next n.1) pre from rfl, he]
      exact nofun
  exact Links.get_set_of_ne hne.symm p

/-- `*prev = a; a->lf_next = b`, where `*prev` was `b`. -/
theorem Rep.insert (h : Rep s ls ch) (hi : ls i = pre ++ rest) (ha : ¬Listed ls a)
    (hon : ¬On ch a) (hr : s.lk a = some r) (hri : r.lfInode = i) (hb : s.block a = none) :
    Rep ((s.setLink (last (.head i) pre) (some a)).setLink (.next a)
        (s.links.get (last (.head i) pre)))
      (Function.update ls i (pre ++ (a, r) :: rest)) ch := by
  have hl := h.lst i
  rw [hi] at hl
  have haddr : ∀ b, b ∈ addrs (pre ++ (a, r) :: rest) ↔ b = a ∨ b ∈ addrs (ls i) := by
    intro b
    simp only [hi, addrs, List.map_append, List.map_cons, List.mem_append, List.mem_cons]
    tauto
  refine h.edit (hl.insert (fun hal => ha ⟨i, hi ▸ hal⟩) hr) ?_ rfl (fun j hj => ?_)
    (fun j hj b hbj => ⟨?_, rfl⟩) (fun w hw => ⟨rfl, fun hwl => ?_⟩) (fun b hbl hbl' => ?_)
    fun b hbl hbl' => ?_
  · intro n hn
    rcases List.mem_append.mp hn with hn | hn
    · exact h.inode i n (hi ▸ List.mem_append_left _ hn)
    · rcases List.mem_cons.mp hn with rfl | hn
      · exact hri
      · exact h.inode i n (hi ▸ List.mem_append_right _ hn)
  · exact head_set_last hj _
  · have hba : b ≠ a := fun hba => ha ⟨j, hba ▸ hbj⟩
    rw [State.setLink, next_set_of_ne fun he => hba (Ref.next.inj he).symm]
    exact next_set_of_ne (h.last_ne hi hj hbj) _
  · rcases (haddr w).mp hwl with rfl | hwl
    · exact hon hw
    · exact h.not_on ⟨i, hwl⟩ hw
  · obtain rfl := ((haddr b).mp hbl).resolve_right hbl'
    exact ⟨h.nil b ha, hb⟩
  · exact absurd ((haddr b).mpr (.inr hbl)) hbl'

theorem Rep.not_mem (h : Rep s ls ch) (hi : ls i = pre ++ (b, x) :: rest) :
    b ∉ addrs (pre ++ rest) := by
  have := h.nodup i
  rw [hi] at this
  exact (List.nodup_cons.mp ((List.perm_middle.map _).nodup_iff.mp this)).1

/-- `*prev = b->lf_next`, and `b` is freed. -/
theorem Rep.unlink (h : Rep s ls ch) (hi : ls i = pre ++ (b, x) :: rest) (hch : ch b = []) :
    Rep ((s.setLink (last (.head i) pre) (s.links.next b)).free b)
      (Function.update ls i (pre ++ rest)) ch := by
  have hl := h.lst i
  rw [hi] at hl
  have hb := h.not_mem hi
  have hbi : b ∈ addrs (ls i) := by simp [hi]
  have hsub : ∀ n ∈ pre ++ rest, n ∈ ls i := by
    intro n hn
    rw [hi]
    exact (List.mem_append.mp hn).elim (List.mem_append_left _) fun hn =>
      List.mem_append_right _ (List.mem_cons_of_mem _ hn)
  have hfree : ∀ c, c ≠ b → (s.free b).lk c = s.lk c := fun c hc => Function.update_of_ne hc _ _
  refine h.edit (hl.unlink.congr (fun _ _ => rfl) fun c hc => hfree c fun hcb => hb (hcb ▸ hc))
    (fun n hn => h.inode i n (hsub n hn)) rfl (fun j hj => head_set_last hj _)
    (fun j hj c hcj => ⟨?_, hfree c ?_⟩) (fun w hw => ⟨hfree w ?_, fun hwl => ?_⟩)
    (fun c hcl hcl' => ?_) fun c hcl hcl' => ?_
  · exact next_set_of_ne (h.last_ne hi hj hcj) _
  · rintro rfl
    exact hj (h.inode_eq hcj hbi)
  · rintro rfl
    exact h.not_on ⟨i, hbi⟩ hw
  · exact h.not_on ⟨i, mem_addrs.mpr ((mem_addrs.mp hwl).imp fun _ => hsub _)⟩ hw
  · exact absurd (mem_addrs.mpr ((mem_addrs.mp hcl).imp fun _ => hsub _)) hcl'
  · have : c = b := by
      simp only [hi, addrs, List.map_append, List.map_cons, List.mem_append, List.mem_cons]
        at hcl hcl'
      tauto
    rw [this, hch]

/-- The fields of a lock on a list are written. -/
theorem Rep.store (h : Rep s ls ch) (hi : ls i = pre ++ (b, x) :: rest) (hy : y.lfInode = i) :
    Rep (s.setLk b y) (Function.update ls i (pre ++ (b, y) :: rest)) ch := by
  have hl := h.lst i
  rw [hi] at hl
  have hbi : b ∈ addrs (ls i) := by simp [hi]
  have haddr : addrs (pre ++ (b, y) :: rest) = addrs (ls i) := by simp [hi]
  have hlk : ∀ c, c ≠ b → (s.setLk b y).lk c = s.lk c := fun c hc => Function.update_of_ne hc _ _
  refine h.edit (hl.store y) (fun n hn => ?_) rfl (fun _ _ => rfl)
    (fun j hj c hcj => ⟨rfl, hlk c ?_⟩) (fun w hw => ⟨hlk w ?_, fun hwl => ?_⟩)
    (fun c hcl hcl' => ?_) fun c hcl hcl' => ?_
  · have hin := h.inode i
    rw [hi] at hin
    rcases List.mem_append.mp hn with hn | hn
    · exact hin n (List.mem_append_left _ hn)
    · rcases List.mem_cons.mp hn with rfl | hn
      · exact hy
      · exact hin n (List.mem_append_right _ (List.mem_cons_of_mem _ hn))
  · rintro rfl
    exact hj (h.inode_eq hcj hbi)
  · rintro rfl
    exact h.not_on ⟨i, hbi⟩ hw
  · exact h.not_on ⟨i, haddr ▸ hwl⟩ hw
  · exact absurd (haddr ▸ hcl) hcl'
  · exact absurd (haddr ▸ hcl) hcl'

/-- A structure that is on no list and no chain is written, allocated or freed. -/
theorem Rep.write (h : Rep s ls ch) (ha : ¬Listed ls a) (hon : ¬On ch a) (p : Option Lock) :
    Rep { s with lk := Function.update s.lk a p } ls ch := by
  have hlk : ∀ c, c ≠ a → Function.update s.lk a p c = s.lk c := fun c hc =>
    Function.update_of_ne hc _ _
  refine ⟨fun i => (h.lst i).congr (fun _ _ => rfl) fun b hb => hlk b ?_, h.inode,
    fun b hb => (h.chain b hb).congr (fun _ _ => rfl) fun w hw => hlk w ?_, h.nil, h.waiter,
    h.disj⟩
  · rintro rfl
    exact ha ⟨i, hb⟩
  · rintro rfl
    exact hon ⟨b, hw⟩

/-- The fields `lf_next` and `lf_block` of a structure that is on no list and no chain. -/
theorem Rep.link (h : Rep s ls ch) (ha : ¬Listed ls a) (p : Option Addr) :
    Rep (s.setLink (.next a) p) ls ch := by
  refine ⟨fun i => (h.lst i).set (fun b hb he => ha ⟨i, ?_⟩) p, h.inode, h.chain, h.nil, h.waiter,
    h.disj⟩
  rwa [Ref.next.inj he]

theorem Rep.setBlock (h : Rep s ls ch) (ha : ¬Listed ls a) (hon : ¬On ch a) (p : Option Addr) :
    Rep (s.setBlock a p) ls ch := by
  have hb : ∀ c, c ≠ a → Function.update s.block a p c = s.block c := fun c hc =>
    Function.update_of_ne hc _ _
  refine ⟨h.lst, h.inode, fun b hbl => ?_, h.nil, h.waiter, h.disj⟩
  have hne : b ≠ a := fun he => ha (he ▸ hbl)
  have hblk : (s.setBlock a p).block b = s.block b := hb b hne
  rw [hblk]
  refine (h.chain b hbl).congr (fun w hw => hb w ?_) fun _ _ => rfl
  rintro rfl
  exact hon ⟨b, hw⟩

/-! ## Chains -/

/-- The chain of the lock `b` is woken. -/
theorem Rep.wake (h : Rep s ls ch) (hb : Listed ls b) :
    Rep ((s.setBlock b none).woken (addrs (ch b))) ls (Function.update ch b []) := by
  have hsub : ∀ c, ∀ w ∈ addrs (Function.update ch b [] c), w ∈ addrs (ch c) ∧ c ≠ b := by
    intro c w hw
    rcases eq_or_ne c b with rfl | hne
    · rw [Function.update_self] at hw
      cases hw
    · rw [Function.update_of_ne hne] at hw
      exact ⟨hw, hne⟩
  refine ⟨fun i => (h.lst i).congr (fun c hc => if_neg fun hw => ?_) fun _ _ => rfl, h.inode,
    fun c hc => ?_, fun c hc => ?_, fun c w hw => h.waiter c w (hsub c w hw).1,
    fun c c' w hw hw' => h.disj c c' w (hsub c w hw).1 (hsub c' w hw').1⟩
  · exact h.waiter b c hw ⟨i, hc⟩
  · rcases eq_or_ne c b with rfl | hne
    · rw [Function.update_self]
      show (if _ then none else Function.update s.block c none c) = none
      rw [Function.update_self, ite_self]
    · have hcb : ∀ w ∈ addrs (ch c), w ∉ addrs (ch b) ∧ w ≠ b := fun w hw =>
        ⟨fun hw' => hne (h.disj c b w hw hw'), fun hwb => h.waiter c w hw (hwb ▸ hb)⟩
      have hcc : c ∉ addrs (ch b) := fun hc' => h.waiter b c hc' hc
      rw [Function.update_of_ne hne]
      have hblk : ((s.setBlock b none).woken (addrs (ch b))).block c = s.block c := by
        show (if _ then none else Function.update s.block b none c) = _
        rw [if_neg hcc, Function.update_of_ne hne]
      rw [hblk]
      refine (h.chain c hc).congr (fun w hw => ?_) fun _ _ => rfl
      show (if _ then none else Function.update s.block b none w) = _
      rw [if_neg (hcb w hw).1, Function.update_of_ne (hcb w hw).2]
  · rcases eq_or_ne c b with rfl | hne
    · exact Function.update_self _ _ _
    · rw [Function.update_of_ne hne, h.nil c hc]

theorem wakeProc_cons (W : List Addr) :
    wakeProc W (s.wakeup w).proc = wakeProc (w :: W) s.proc := by
  funext p
  unfold wakeProc State.wakeup
  dsimp only
  cases hp : s.proc p with
  | asleep c =>
    by_cases hc : c = w
    · simp [hc]
    · simp [hc]
  | _ => simp

theorem wakeFrom_meets {n : ℕ} {p : Option Addr} (h : Lst s.lk s.block p l) :
    Meets (n < l.length) (wakeFrom s n p) (· = s.woken (addrs l)) := by
  induction l generalizing s n p with
  | nil =>
    obtain rfl := h
    have : wakeFrom s n none = .ok s := by cases n <;> rfl
    rw [this, meets_ok]
    refine State.ext rfl rfl rfl (funext fun p => ?_)
    show s.proc p = wakeProc [] s.proc p
    unfold wakeProc
    cases s.proc p <;> rfl
  | cons k l ih =>
    obtain ⟨w, y⟩ := k
    have hnd := List.nodup_cons.mp h.nodup
    obtain ⟨rfl, hy, hl⟩ := h
    cases n with
    | zero => exact Nat.succ_pos _
    | succ n =>
      have hd : s.deref w = .ok y := by rw [State.deref, hy]
      rw [wakeFrom, hd]
      show Meets _ (wakeFrom _ n (s.block w)) _
      have hl' : Lst s.lk (((s.setBlock w none).setLink (.next w) none).wakeup w).block (s.block w) l :=
        hl.congr (fun c hc => Function.update_of_ne (fun hcw => hnd.1 (by rwa [hcw] at hc)) _ _)
          fun _ _ => rfl
      refine ((ih hl').mono Nat.succ_lt_succ).imp fun s' hs' => hs'.trans ?_
      refine State.ext rfl ?_ ?_ (wakeProc_cons _)
      · refine Links.ext rfl (funext fun c => ?_)
        show (if c ∈ addrs l then none else Function.update s.links.next w none c) =
          if c ∈ w :: addrs l then none else s.links.next c
        by_cases hc : c = w
        · simp [hc]
        · rw [Function.update_of_ne hc]
          exact if_congr (by rw [List.mem_cons, or_iff_right hc]) rfl rfl
      · funext c
        show (if c ∈ addrs l then none else Function.update s.block w none c) =
          if c ∈ w :: addrs l then none else s.block c
        by_cases hc : c = w
        · simp [hc]
        · rw [Function.update_of_ne hc]
          exact if_congr (by rw [List.mem_cons, or_iff_right hc]) rfl rfl

theorem lfWakelock_meets (h : Rep s ls ch) (hb : Listed ls b) {n : ℕ} :
    Meets (n < (ch b).length) (lfWakelock s n b)
      (· = (s.setBlock b none).woken (addrs (ch b))) := by
  refine wakeFrom_meets ((h.chain b hb).congr (fun w hw => Function.update_of_ne ?_ _ _)
    fun _ _ => rfl)
  rintro rfl
  exact h.waiter w w hw hb

/-- The loop of `lf_addblock` writes to the last `lf_block` of the chain. -/
theorem addblockFrom_meets {n : ℕ} (ha : s.lk a = some x)
    (h : Lst s.lk s.block (s.block a) l) :
    Meets (n ≤ l.length) (addblockFrom s w n a) (· = s.setBlock (lastOf a l) (some w)) := by
  induction l generalizing a x n with
  | nil =>
    cases n with
    | zero => exact Nat.zero_le _
    | succ n =>
      have hd : s.deref a = .ok x := by rw [State.deref, ha]
      have hb : s.block a = none := h
      rw [addblockFrom, hd]
      simp only [bind, Except.bind, hb]
      exact rfl
  | cons k l ih =>
    obtain ⟨c, y⟩ := k
    obtain ⟨hb, hy, hl⟩ := h
    cases n with
    | zero => exact Nat.zero_le _
    | succ n =>
      have hd : s.deref a = .ok x := by rw [State.deref, ha]
      rw [addblockFrom, hd]
      simp only [bind, Except.bind, hb]
      exact (ih hy hl).mono Nat.succ_le_succ

/-- The lock `a` gets another chain. -/
theorem Rep.rechain (h : Rep s ls ch) (ha : Listed ls a) {block : Addr → Option Addr}
    (hl : Lst s.lk block (block a) l)
    (hb : ∀ c ≠ a, Listed ls c ∨ (∃ d ≠ a, c ∈ addrs (ch d)) → block c = s.block c)
    (hon : ∀ w ∈ addrs l, ¬Listed ls w ∧ ∀ d ≠ a, w ∉ addrs (ch d)) :
    Rep { s with block := block } ls (Function.update ch a l) := by
  have hmem : ∀ c w, w ∈ addrs (Function.update ch a l c) →
      (c = a ∧ w ∈ addrs l) ∨ (c ≠ a ∧ w ∈ addrs (ch c)) := by
    intro c w hw
    rcases eq_or_ne c a with rfl | hne
    · rw [Function.update_self] at hw
      exact .inl ⟨rfl, hw⟩
    · rw [Function.update_of_ne hne] at hw
      exact .inr ⟨hne, hw⟩
  refine ⟨h.lst, h.inode, fun c hc => ?_, fun c hc => ?_, fun c w hw => ?_,
    fun c c' w hw hw' => ?_⟩
  · rcases eq_or_ne c a with rfl | hne
    · rwa [Function.update_self]
    · rw [Function.update_of_ne hne]
      have hbc : block c = s.block c := hb c hne (.inl hc)
      show Lst s.lk block (block c) _
      rw [hbc]
      exact (h.chain c hc).congr (fun w hw => hb w
        (fun hwa => h.waiter c w hw (hwa ▸ ha)) (.inr ⟨c, hne, hw⟩)) fun _ _ => rfl
  · have hne : c ≠ a := fun he => hc (he ▸ ha)
    rw [Function.update_of_ne hne, h.nil c hc]
  · rcases hmem c w hw with ⟨-, hw⟩ | ⟨-, hw⟩
    · exact (hon w hw).1
    · exact h.waiter c w hw
  · rcases hmem c w hw with ⟨hc, hwl⟩ | ⟨hc, hwc⟩ <;>
      rcases hmem c' w hw' with ⟨hc', hwl'⟩ | ⟨hc', hwc'⟩
    · rw [hc, hc']
    · exact absurd hwc' ((hon w hwl).2 c' hc')
    · exact absurd hwc ((hon w hwl').2 c hc)
    · exact h.disj c c' w hwc hwc'

/-- The chain of `b` passes to the lock `a`, in front of its own, and `b` leaves the list. -/
theorem Rep.absorb (h : Rep s ls ch) (hi : ls i = pre ++ (b, x) :: rest) (ha : Listed ls a)
    (hab : a ≠ b) {block : Addr → Option Addr}
    (hchain : Lst s.lk block (block a) (ch b ++ ch a))
    (hblock : ∀ c, c ≠ a → c ∉ addrs (ch b) → block c = s.block c) :
    Rep ({ s.setLink (last (.head i) pre) (s.links.next b) with block := block }.free b)
      (Function.update ls i (pre ++ rest))
      (Function.update (Function.update ch b []) a (ch b ++ ch a)) := by
  have hb : Listed ls b := ⟨i, by simp [hi]⟩
  have hbon : b ∉ addrs (ch b ++ ch a) := fun hbc => by
    rw [addrs, List.map_append, List.mem_append] at hbc
    exact hbc.elim (fun hw => h.waiter b b hw hb) fun hw => h.waiter a b hw hb
  have hdrop : Rep (s.setBlock b none) ls (Function.update ch b []) :=
    h.rechain hb (Function.update_self _ _ _) (fun c hc _ => Function.update_of_ne hc _ _)
      fun _ hw => by cases hw
  have hun := hdrop.unlink hi (Function.update_self _ _ _)
  have hrest : ∀ c, Listed (Function.update ls i (pre ++ rest)) c → Listed ls c ∧ c ≠ b := by
    intro c hc
    rcases listed_update.mp hc with hc | ⟨j, hj, hc⟩
    · refine ⟨⟨i, ?_⟩, fun he => h.not_mem hi (he ▸ hc)⟩
      rw [hi]
      simp only [addrs, List.map_append, List.map_cons, List.mem_append, List.mem_cons] at hc ⊢
      tauto
    · exact ⟨⟨j, hc⟩, fun he => hj (h.inode_eq (he ▸ hc) (show b ∈ addrs (ls i) by simp [hi]))⟩
  have ha' : Listed (Function.update ls i (pre ++ rest)) a := by
    obtain ⟨j, hj⟩ := ha
    rcases eq_or_ne j i with rfl | hne
    · refine listed_update.mpr (.inl ?_)
      rw [hi] at hj
      simp only [addrs, List.map_append, List.map_cons, List.mem_append, List.mem_cons] at hj ⊢
      tauto
    · exact listed_update.mpr (.inr ⟨j, hne, hj⟩)
  have hch : ∀ d w, w ∈ addrs (Function.update ch b [] d) → d ≠ b ∧ w ∈ addrs (ch d) := by
    intro d w hw
    rcases eq_or_ne d b with rfl | hne
    · rw [Function.update_self] at hw
      cases hw
    · rw [Function.update_of_ne hne] at hw
      exact ⟨hne, hw⟩
  have hfree : ∀ w ∈ addrs (ch b ++ ch a), (s.free b).lk w = s.lk w := fun w hw =>
    Function.update_of_ne (fun he : w = b => hbon (he ▸ hw)) _ _
  refine hun.rechain ha' (hchain.congr (fun _ _ => rfl) hfree) (fun c hc hcl => ?_)
    fun w hw => ⟨fun hwl => ?_, fun d hd hwd => ?_⟩
  · have hcb : c ∉ addrs (ch b) ∧ c ≠ b := by
      rcases hcl with hcl | ⟨d, hd, hcd⟩
      · exact ⟨fun hw => h.waiter b c hw (hrest c hcl).1, (hrest c hcl).2⟩
      · obtain ⟨hdb, hcd⟩ := hch d c hcd
        exact ⟨fun hw => hdb (h.disj d b c hcd hw), fun he => h.waiter d c hcd (he ▸ hb)⟩
    exact (hblock c hc hcb.1).trans (Function.update_of_ne hcb.2 _ _).symm
  · rw [addrs, List.map_append, List.mem_append] at hw
    exact hw.elim (fun hw => h.waiter b w hw (hrest w hwl).1) fun hw =>
      h.waiter a w hw (hrest w hwl).1
  · obtain ⟨hdb, hwd⟩ := hch d w hwd
    rw [addrs, List.map_append, List.mem_append] at hw
    exact hw.elim (fun hw => hdb (h.disj d b w hwd hw)) fun hw => hd (h.disj d a w hwd hw)

end Lockf
