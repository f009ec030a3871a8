import Mathlib
import NetBsd.Ufs.Lockf.Loops

/-!
# Setting and removing a lock without interleaving

What `lf_split` does from its allocation on, and the two operations as a whole: the loop, and the
split if it comes to one.

## Main results

* `lfSplit3_eq`: the three locks that `lf_split` makes of two
* `setlock_alone`, `clearlock_alone`: the operations return, with the lists `setList` and
  `clearList`
* `lock_ranges`: they do to the bytes of the owner what they are to do, and nothing else, exactly
  when no start overflows
-/

namespace Lockf

open LinkedList Fault

variable {a b c : Addr} {r x : Lock} {s : State} {ls : Ino → List Node} {ch : Addr → List Node}
  {pre tl : List Node} {n : ℕ}

/-- Where `lf_split` stands at its allocation: the lock `b` is on the list, `a` on none, and `c` is
not in use. -/
structure SplitAt (a : Addr) (r : Lock) (b : Addr) (x : Lock) (c : Addr) (s : State)
    (ls : Ino → List Node) (ch : Addr → List Node) (pre tl : List Node) : Prop where
  rep : Rep s ls ch
  list : ls r.lfInode = pre ++ (b, x) :: tl
  lk : s.lk a = some r
  off : ¬On ch a
  new : ¬Listed ls a
  block : s.block a = none
  fresh : s.lk c = none

theorem Rep.not_listed (h : Rep s ls ch) (hc : s.lk c = none) : ¬Listed ls c := fun hl => by
  obtain ⟨x, hx, -⟩ := h.listed_iff.mp hl
  rw [hc] at hx
  cases hx

theorem Rep.off_of_none (h : Rep s ls ch) (hc : s.lk c = none) : ¬On ch c := fun hon => by
  obtain ⟨x, hx⟩ := h.lk_of_on hon
  rw [hc] at hx
  cases hx

theorem SplitAt.ne (h : SplitAt a r b x c s ls ch pre tl) : a ≠ c ∧ b ≠ c ∧ a ≠ b := by
  have hlk : s.lk b = some x := h.rep.lk_eq (i := r.lfInode) (by simp [h.list])
  refine ⟨?_, ?_, fun he => h.new ⟨r.lfInode, by simp [h.list, he]⟩⟩
  · rintro rfl
    have := h.lk
    rw [h.fresh] at this
    cases this
  · rintro rfl
    rw [h.fresh] at hlk
    cases hlk

/-- The state with the third lock on the list, before the range of the first is cut. -/
def third (s : State) (b c : Addr) (y : Lock) : State :=
  (((s.setLk c y).setBlock c none).setLink (.next c) (s.links.next b)).setLink (.next b) (some c)

theorem SplitAt.third (h : SplitAt a r b x c s ls ch pre tl) {y : Lock}
    (hy : y.lfInode = r.lfInode) :
    Edit c y ((s.setLk c y).setBlock c none) ls ch [] (third s b c y)
      (Function.update ls r.lfInode (pre ++ (b, x) :: (c, y) :: tl)) ch := by
  have hnl := h.rep.not_listed h.fresh
  have hoff := h.rep.off_of_none h.fresh
  have hrep := ((h.rep.write hnl hoff (some y)).setBlock hnl hoff none)
  exact Edit.insertAfter hrep h.list hnl hoff (Function.update_self ..) hy (Function.update_self ..)

theorem third_next (s : State) (b c : Addr) (y : Lock) :
    (third s b c y).links.next b = some c :=
  Links.get_set_same _ (.next b) _

/-- The third lock goes behind the first, then the request between the two; the first is cut. -/
theorem lfSplit3_eq (h : SplitAt a r b x c s ls ch pre tl) :
    lfSplit3 s b a c = .ok ((((Lockf.third s b c { x with lfStart := wrap (r.lfEnd + 1) }).setLink
      (.next a) (some c)).setLink (.next b) (some a)).setLk b { x with lfEnd := r.lfStart - 1 }) := by
  have hlk : s.lk b = some x := h.rep.lk_eq (i := r.lfInode) (by simp [h.list])
  have hab : (Ref.next b : Ref Ino Addr) ≠ .next a := fun he => h.ne.2.2 (Ref.next.inj he).symm
  rw [lfSplit3, deref_eq hlk]
  show (s.deref a >>= fun l2 => _) = _
  rw [deref_eq h.lk]
  refine congrArg Except.ok (State.ext rfl ?_ rfl rfl)
  show ((s.links.set (.next c) (s.links.next b)).set (.next a) (some c)).set (.next b) (some a) =
    (((s.links.set (.next c) (s.links.next b)).set (.next b) (some c)).set (.next a)
      (some c)).set (.next b) (some a)
  rw [Links.set_comm hab, Links.set_set]

/-- Three locks in the place of one, and the chain of the first woken. -/
theorem setlockSplit_meets (h : SplitAt a r b x c s ls ch pre tl) {F : Prop}
    (hF : ¬F → (ch b).length ≤ n) :
    Meets F (setlockSplit s n b a c) fun s' =>
      Edit a r (Lockf.third s b c { x with lfStart := wrap (r.lfEnd + 1) })
        (Function.update ls r.lfInode
          (pre ++ (b, x) :: (c, { x with lfStart := wrap (r.lfEnd + 1) }) :: tl)) ch
        (addrs (ch b)) s'
        (Function.update ls r.lfInode (pre ++ (b, { x with lfEnd := r.lfStart - 1 }) :: (a, r) ::
          (c, { x with lfStart := wrap (r.lfEnd + 1) }) :: tl)) (Function.update ch b []) := by
  have hxi : x.lfInode = r.lfInode := h.rep.inode r.lfInode (b, x) (by simp [h.list])
  have he := h.third (y := { x with lfStart := wrap (r.lfEnd + 1) }) hxi
  have hac := h.ne.1
  have hnl : ¬Listed (Function.update ls r.lfInode
      (pre ++ (b, x) :: (c, { x with lfStart := wrap (r.lfEnd + 1) }) :: tl)) a := fun hl =>
    (he.listed a hl).elim h.new hac
  have hlk : (Lockf.third s b c { x with lfStart := wrap (r.lfEnd + 1) }).lk a = some r :=
    (Function.update_of_ne hac _ _).trans h.lk
  have hblk : (Lockf.third s b c { x with lfStart := wrap (r.lfEnd + 1) }).block a = none :=
    (Function.update_of_ne hac _ _).trans h.block
  have hins := Edit.insertAfter he.rep (Function.update_self ..) hnl h.off hlk rfl hblk
  rw [third_next, Function.update_idem] at hins
  have hwake := lfWakelock_store (a := a) (r := r) (n := n) hins.rep (Function.update_self ..)
    (y := { x with lfEnd := r.lfStart - 1 }) hxi
  rw [setlockSplit, lfSplit3_eq h]
  refine (hwake.mono fun hlt => ?_).imp fun s' hs => ?_
  · by_contra hn
    have := hF hn
    omega
  · rw [Function.update_idem] at hs
    exact hins.trans hs

/-- Two locks in the place of one. -/
theorem clearlockSplit_eq (h : SplitAt a r b x c s ls ch pre tl) :
    clearlockSplit s b a c =
      .ok (((Lockf.third s b c { x with lfStart := wrap (r.lfEnd + 1) }).setLink (.next a)
        (some c)).setLk b { x with lfEnd := r.lfStart - 1 }) := by
  have hab : (Ref.next b : Ref Ino Addr) ≠ .next a := fun he => h.ne.2.2 (Ref.next.inj he).symm
  rw [clearlockSplit, lfSplit3_eq h]
  refine congrArg Except.ok (State.ext rfl ?_ rfl rfl)
  show (((((s.links.set (.next c) (s.links.next b)).set (.next b) (some c)).set (.next a)
      (some c)).set (.next b) (some a)).set (.next b)
      (((((s.links.set (.next c) (s.links.next b)).set (.next b) (some c)).set (.next a)
        (some c)).set (.next b) (some a)).next a)) =
    ((s.links.set (.next c) (s.links.next b)).set (.next b) (some c)).set (.next a) (some c)
  rw [next_set_of_ne hab, show ∀ L : Links Ino Addr, (L.set (.next a) (some c)).next a = some c from
    fun L => Links.get_set_same L (.next a) _, Links.set_set, Links.set_comm hab, Links.set_set,
    Links.set_comm hab.symm]

theorem clearlockSplit_rep (h : SplitAt a r b x c s ls ch pre tl) :
    Rep (((Lockf.third s b c { x with lfStart := wrap (r.lfEnd + 1) }).setLink (.next a)
        (some c)).setLk b { x with lfEnd := r.lfStart - 1 })
      (Function.update ls r.lfInode (pre ++ (b, { x with lfEnd := r.lfStart - 1 }) ::
        (c, { x with lfStart := wrap (r.lfEnd + 1) }) :: tl)) ch := by
  have hxi : x.lfInode = r.lfInode := h.rep.inode r.lfInode (b, x) (by simp [h.list])
  have he := h.third (y := { x with lfStart := wrap (r.lfEnd + 1) }) hxi
  have hnl : ¬Listed (Function.update ls r.lfInode
      (pre ++ (b, x) :: (c, { x with lfStart := wrap (r.lfEnd + 1) }) :: tl)) a := fun hl =>
    (he.listed a hl).elim h.new h.ne.1
  have := (he.rep.link hnl (some c)).store (Function.update_self ..)
    (y := { x with lfEnd := r.lfStart - 1 }) hxi
  rwa [Function.update_idem] at this

/-! ## The operations as a whole -/

/-- A request that has been allocated and is on no list and no chain. -/
structure Request (a : Addr) (r : Lock) (s : State) (ls : Ino → List Node)
    (ch : Addr → List Node) : Prop where
  rep : Rep s ls ch
  ordered : Ordered (ls r.lfInode)
  valid : ∀ k ∈ ls r.lfInode, k.2.Valid
  lk : s.lk a = some r
  req : r.Valid
  off : ¬On ch a
  new : ¬Listed ls a
  block : s.block a = none

theorem Request.setAt (h : Request a r s ls ch) : SetAt a r s ls ch [] (ls r.lfInode) true where
  rep := h.rep
  list := rfl
  lk := h.lk
  ordered := h.ordered
  valid := h.valid
  off := h.off
  new _ := ⟨h.new, h.block⟩
  old := nofun

theorem Request.clearAt (h : Request a r s ls ch) : ClearAt a r s ls ch [] (ls r.lfInode) :=
  ⟨h.rep, rfl, h.lk, h.valid, h.off, h.new, h.block⟩

/-- The loop of `lf_setlock` from the head of the list. -/
theorem setlock_meets (h : Request a r s ls ch) (ht : r.lfType ≠ .unlck) {F : Prop}
    (hF : ¬F → Enough n ch (ls r.lfInode)) :
    Meets F (setFrom n a (n + 1) s (.head r.lfInode) (s.links.head r.lfInode) true)
      (SetPost a r s ls ch [] (ls r.lfInode) true) := by
  have := setFrom_meets h.setAt h.req ht (n := n) (m := n + 1) (F := F) fun hn =>
    ⟨hF hn, Nat.lt_succ_of_le (hF hn).1⟩
  rwa [← (h.rep.lst r.lfInode).eq_first] at this

theorem clearlock_meets (h : Request a r s ls ch) {F : Prop}
    (hF : ¬F → Enough n ch (ls r.lfInode)) :
    Meets F (lfClearlock s n a) (ClearPost a r s ls ch [] (ls r.lfInode)) := by
  have hloop := clearFrom_meets h.clearAt h.req (n := n) (m := n + 1) (F := F) fun hn =>
    ⟨hF hn, Nat.lt_succ_of_le (hF hn).1⟩
  rw [← (h.rep.lst r.lfInode).eq_first] at hloop
  rw [lfClearlock, deref_eq h.lk]
  simp only [bind, Except.bind]
  cases hhead : s.links.head r.lfInode with
  | none =>
    have hnil : ls r.lfInode = [] := by
      have := (h.rep.lst r.lfInode).eq_first
      rw [hhead] at this
      cases hl : ls r.lfInode with
      | nil => rfl
      | cons k l =>
        rw [hl] at this
        cases this
    refine ClearPost.done (Edit.refl h.rep) (fun c => ?_) h.new h.lk
    rw [hnil]
    exact (Function.update_eq_self_iff.mpr hnil.symm).symm
  | some lf =>
    rw [hhead] at hloop
    exact hloop

/-- A granted `lf_setlock` with no other process in between. -/
theorem setlock_alone (h : Request a r s ls ch) (ht : r.lfType ≠ .unlck)
    (hn : Enough n ch (ls r.lfInode)) (hb : lfGetblock s n r = .ok none) (hc : s.lk c = none)
    (p : Pid) :
    ∃ s' ls' ch', lfSetlockAlone s n p a c = .ok (s', .done) ∧ Rep s' ls' ch' ∧
      ls' = Function.update ls r.lfInode
        (setList a r c (wrap (r.lfEnd + 1)) true (ls r.lfInode)) := by
  obtain ⟨q, hq, hpost⟩ := (setlock_meets h ht (F := False) fun _ => hn).total fun h => h
  have hset : lfSetlock s n p a = .ok q := by
    rw [lfSetlock, deref_eq h.lk]
    show (lfGetblock s n r >>= _) = _
    rw [hb]
    exact hq
  rw [lfSetlockAlone, hset]
  cases hpost with
  | done he hl _ => exact ⟨_, _, _, rfl, he.rep, hl c⟩
  | @split mid tl b x _ hlist hm hs =>
    have hat : SplitAt a r b x c s ls ch mid tl := ⟨h.rep, hlist, h.lk, h.off, h.new, h.block, hc⟩
    have hch : (ch b).length ≤ n := (hn.2 (b, x) (by simp [hlist])).le
    obtain ⟨s', hs', he⟩ := (setlockSplit_meets hat (F := False) fun _ => hch).total fun h => h
    refine ⟨s', _, _, ?_, he.rep, ?_⟩
    · show (setlockSplit s n b a c >>= _) = _
      rw [hs']
      rfl
    · rw [hlist, setList_append hm]
      simp only [setList, if_neg hs.passes, if_neg hs.apart, hs.contains, if_neg hs.type,
        if_neg hs.start_ne, if_neg hs.end_ne]

/-- `lf_clearlock` with no other process in between. -/
theorem clearlock_alone (h : Request a r s ls ch) (hn : Enough n ch (ls r.lfInode))
    (hc : s.lk c = none) :
    ∃ s' ls' ch', lfClearlockAlone s n a c = .ok (s', .done) ∧ Rep s' ls' ch' ∧
      ls' = Function.update ls r.lfInode (clearList r c (wrap (r.lfEnd + 1)) (ls r.lfInode)) := by
  obtain ⟨q, hq, hpost⟩ := (clearlock_meets h (F := False) fun _ => hn).total fun h => h
  rw [lfClearlockAlone, hq]
  cases hpost with
  | done he hl _ _ => exact ⟨_, _, _, rfl, he.rep, hl c⟩
  | @split W s₁ ls₁ ch₁ pre tl b x he hnl hlk hblk hls hl hid hap hcon hs hend =>
    have hfresh : s₁.lk c = none := by
      have hnc := h.rep.not_listed hc
      have hca : c ≠ a := by
        rintro rfl
        rw [h.lk] at hc
        cases hc
      rw [he.lk c hnc hca, hc]
    have hlist : ls₁ r.lfInode = pre ++ (b, x) :: tl := by rw [hls, Function.update_self]
    have hat : SplitAt a r b x c s₁ ls₁ ch₁ pre tl :=
      ⟨he.rep, hlist, hlk, fun hon => h.off ((he.on a).mp hon).1, hnl, hblk, hfresh⟩
    refine ⟨_, _, _, ?_, clearlockSplit_rep hat, ?_⟩
    · show (clearlockSplit s₁ b a c >>= _) = _
      rw [clearlockSplit_eq hat]
      rfl
    · rw [hls, Function.update_idem, ← hl c]
      rfl

/-- Neither scan panics; a granted lock gets exactly its bytes and a removed one gives exactly its
bytes up, all other bytes keep their owners, and the locks of each owner stay disjoint and in
order, exactly when no start overflows. -/
theorem lock_ranges (h : Request a r s ls ch) (hn : Enough n ch (ls r.lfInode))
    (hc : s.lk c = none) :
    (∃ o, lfGetblock s n r = .ok o) ∧
    (r.lfType ≠ .unlck → lfGetblock s n r = .ok none → ∀ p, ∃ s' ls' ch',
      lfSetlockAlone s n p a c = .ok (s', .done) ∧ Rep s' ls' ch' ∧
      (∀ j ≠ r.lfInode, ls' j = ls j) ∧
      (SetDone r (ls r.lfInode) (ls' r.lfInode) ↔ ¬SetWraps r (ls r.lfInode))) ∧
    (∃ s' ls' ch', lfClearlockAlone s n a c = .ok (s', .done) ∧ Rep s' ls' ch' ∧
      (∀ j ≠ r.lfInode, ls' j = ls j) ∧
      (ClearDone r (ls r.lfInode) (ls' r.lfInode) ↔ ¬ClearWraps r (ls r.lfInode))) := by
  refine ⟨?_, fun ht hb p => ?_, ?_⟩
  · obtain ⟨o, ho, -⟩ := (lfGetblock_meets h.rep h.valid h.req).total (not_lt.mpr hn.1)
    exact ⟨o, ho⟩
  · obtain ⟨s', ls', ch', hs, hrep, rfl⟩ := setlock_alone h ht hn hb hc p
    refine ⟨s', _, ch', hs, hrep, fun j hj => Function.update_of_ne hj _ _, ?_⟩
    rw [Function.update_self]
    exact setDone_iff h.ordered h.valid h.req
  · obtain ⟨s', ls', ch', hs, hrep, rfl⟩ := clearlock_alone h hn hc
    refine ⟨s', _, ch', hs, hrep, fun j hj => Function.update_of_ne hj _ _, ?_⟩
    rw [Function.update_self]
    exact clearDone_iff h.ordered h.valid h.req

/-- One lock on the list of inode 0, and a request. -/
def oneLock (x r : Lock) : State where
  lk b := if b = 1 then some x else if b = 2 then some r else none
  links := ⟨fun i => if i = 0 then some 1 else none, fun _ => none⟩
  block _ := none
  proc _ := .idle

theorem oneLock_request (hx : x.Valid) (hr : r.Valid) (hxi : x.lfInode = 0) (hri : r.lfInode = 0) :
    Request 2 r (oneLock x r) (fun i => if i = 0 then [(1, x)] else []) fun _ => [] := by
  have hlisted : ∀ b, Listed (fun i => if i = 0 then [(1, x)] else []) b → b = 1 := by
    rintro b ⟨i, hb⟩
    by_cases hi : i = 0
    · simpa [hi] using hb
    · simp [hi] at hb
  have hlist : ∀ k ∈ (if r.lfInode = 0 then [((1 : Addr), x)] else []), k = (1, x) := by simp [hri]
  have hnone : ∀ w : Addr, w ∉ addrs ([] : List Node) := fun _ hw => nomatch hw
  refine ⟨⟨fun i => ?_, fun i n hn => ?_, fun _ _ => rfl, fun _ _ => rfl,
    fun _ w hw => absurd hw (hnone w), fun _ _ w hw => absurd hw (hnone w)⟩, ?_, fun k hk => ?_, rfl,
    hr, fun ⟨_, hb⟩ => hnone 2 hb, fun hl => absurd (hlisted _ hl) (by decide), rfl⟩
  · by_cases hi : i = 0
    · simp [oneLock, hi, Lst]
    · simp [oneLock, hi, Lst]
  · by_cases hi : i = 0
    · simp only [if_pos hi, List.mem_singleton] at hn
      rw [hn, hi]
      exact hxi
    · simp [hi] at hn
  · rw [hri]
    exact List.pairwise_singleton _ _
  · rw [hlist k hk]
    exact hx

def procLock (type : LkType) (start lend : Int) : Lock :=
  ⟨true, false, false, type, start, lend, .proc 1, 0⟩

theorem lock_ranges_upgrade :
    ∃ s' ls' ch', lfSetlockAlone (oneLock (procLock .rdlck 0 9) (procLock .wrlck 3 5)) 5 1 2 3 =
      .ok (s', .done) ∧ Rep s' ls' ch' ∧
      SetDone (procLock .wrlck 3 5) [(1, procLock .rdlck 0 9)] (ls' 0) := by
  have h := oneLock_request (x := procLock .rdlck 0 9) (r := procLock .wrlck 3 5)
    ⟨by decide, by decide, by decide, by decide⟩ ⟨by decide, by decide, by decide, by decide⟩ rfl rfl
  obtain ⟨s', ls', ch', hs, hrep, -, hdone⟩ := (lock_ranges (n := 5) (c := 3) h
    ⟨by decide, fun _ _ => Nat.succ_pos _⟩ rfl).2.1 (by decide) rfl 1
  exact ⟨s', ls', ch', hs, hrep, hdone.mpr fun hw => absurd hw.1 (by decide)⟩

/-- An owner of all bytes asks for a shared lock up to the last byte of all: the exclusive lock
keeps it, and all bytes before. -/
theorem lock_wraps :
    ∃ s' ls' ch', lfSetlockAlone (oneLock (procLock .wrlck 0 (-1)) (procLock .rdlck 5 maxOff)) 5 1 2 3 =
      .ok (s', .done) ∧ Rep s' ls' ch' ∧
      ¬SetDone (procLock .rdlck 5 maxOff) [(1, procLock .wrlck 0 (-1))] (ls' 0) := by
  have h := oneLock_request (x := procLock .wrlck 0 (-1)) (r := procLock .rdlck 5 maxOff)
    ⟨by decide, by decide, by decide, by decide⟩ ⟨by decide, by decide, by decide, by decide⟩ rfl rfl
  obtain ⟨s', ls', ch', hs, hrep, rfl⟩ := setlock_alone (n := 5) (c := 3) h (by decide)
    ⟨by decide, fun _ _ => Nat.succ_pos _⟩ rfl rfl 1
  refine ⟨s', _, ch', hs, hrep, ?_⟩
  have hwraps : SetWraps (procLock .rdlck 5 maxOff) [(1, procLock .wrlck 0 (-1))] :=
    ⟨rfl, _, List.mem_singleton_self _, rfl, rfl, .inl (by decide)⟩
  rw [show (procLock .rdlck 5 maxOff).lfInode = 0 from rfl, Function.update_self]
  exact fun hd => (setDone_iff h.ordered h.valid h.req).mp hd hwraps

end Lockf
