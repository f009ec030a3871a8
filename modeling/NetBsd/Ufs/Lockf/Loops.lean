import Mathlib
import NetBsd.Ufs.Lockf.Edits

/-!
# The loops on the lists they edit

What the scans find, and that the loops of `lf_setlock` and `lf_clearlock` leave the lists that
`setList` and `clearList` say, by edits.

## Main definitions

* `Scanned`: where a scan of `lf_findoverlap` stops
* `Blocks r x`: the lock `x` conflicts with the request `r`
* `Splits r x`: setting `r` inside of the own lock `x` takes a third lock

## Main results

* `lfFindoverlap_meets`, `lfGetblock_meets`: the scans; the `panic` is not reached
* `setFrom_meets`, `clearFrom_meets`: the loops
-/

namespace Lockf

open LinkedList Fault

variable {a b c : Addr} {r x : Lock} {s : State} {ls : Ino → List Node} {ch : Addr → List Node}
  {i : Ino} {pre rest l : List Node} {n m : ℕ} {p : Option Addr} {prev : Ref Ino Addr} {F : Prop}

/-! ## Scans -/

theorem deref_eq (h : s.lk a = some x) : s.deref a = .ok x := by rw [State.deref, h]

/-- A scan goes past the lock `x`. -/
def PassesBy : Whose → Lock → Lock → Prop
  | .self, r, x => Passes r x
  | .others, r, x => x.lfId = r.lfId ∨ Apart x r

/-- Where a scan of the locks `rest` for the request `r` stops. -/
inductive Scanned (type : Whose) (r : Lock) (prev : Ref Ino Addr) (rest : List Node) :
    Found → Prop
  | none : (∀ k ∈ rest, PassesBy type r k.2) → Scanned type r prev rest (.clear (last prev rest) none)
  | past {mid b x tl} : rest = mid ++ (b, x) :: tl → (∀ k ∈ mid, PassesBy type r k.2) →
    ¬PassesBy type r x → Apart x r → Scanned type r prev rest (.clear (last prev mid) (some b))
  | hit {mid b x tl c} : rest = mid ++ (b, x) :: tl → (∀ k ∈ mid, PassesBy type r k.2) →
    ¬PassesBy type r x → ¬Apart x r → classify x r = .ok c →
    Scanned type r prev rest (.overlap c (last prev mid) b)

theorem Scanned.cons {type : Whose} {f : Found} (hx : PassesBy type r x)
    (h : Scanned type r (.next b) l f) : Scanned type r prev ((b, x) :: l) f := by
  cases h with
  | none h => exact .none (List.forall_mem_cons.mpr ⟨hx, h⟩)
  | @past mid _ _ _ he hm hp ha =>
    have he' := congrArg ((b, x) :: ·) he
    exact .past (he'.trans (List.cons_append ..).symm) (List.forall_mem_cons.mpr ⟨hx, hm⟩) hp ha
  | @hit mid _ _ _ _ he hm hp ha hc =>
    have he' := congrArg ((b, x) :: ·) he
    exact .hit (he'.trans (List.cons_append ..).symm) (List.forall_mem_cons.mpr ⟨hx, hm⟩) hp ha hc

theorem lfFindoverlap_meets {type : Whose} (h : Lst s.lk s.links.next p rest)
    (hv : ∀ k ∈ rest, k.2.Valid) (hr : r.Valid) :
    Meets (n < rest.length) (lfFindoverlap s r type n p prev) (Scanned type r prev rest) := by
  induction rest generalizing p prev n with
  | nil =>
    obtain rfl := h
    have : lfFindoverlap s r type n none prev = .ok (.clear prev none) := by cases n <;> rfl
    rw [this]
    exact .none fun _ hk => nomatch hk
  | cons k rest ih =>
    obtain ⟨b, x⟩ := k
    obtain ⟨rfl, hx, hl⟩ := h
    cases n with
    | zero => exact Nat.succ_pos _
    | succ n =>
      have ih : Meets (n + 1 < rest.length + 1) (lfFindoverlap s r type n (s.links.next b) (.next b))
          (Scanned type r (.next b) rest) :=
        (ih hl fun k hk => hv k (List.mem_cons_of_mem _ hk)).mono Nat.succ_lt_succ
      have hxv : x.Valid := hv (b, x) List.mem_cons_self
      rw [lfFindoverlap, deref_eq hx]
      show Meets _ (if skipped type x r then _ else _) _
      by_cases hsk : skipped type x r
      · rw [if_pos hsk]
        refine ih.imp fun f hf => hf.cons ?_
        cases type
        · exact .inl hsk
        · exact .inl hsk
      rw [if_neg hsk]
      by_cases hap : Apart x r
      · rw [if_pos hap]
        by_cases hpast : type = .self ∧ r.lfEnd ≠ -1 ∧ x.lfStart > r.lfEnd
        · rw [if_pos hpast]
          refine .past (List.nil_append _).symm (fun _ hk => nomatch hk) ?_ hap
          rw [hpast.1] at hsk ⊢
          rintro (h | h)
          · exact hsk h
          · exact h.2 hpast.2
        · rw [if_neg hpast]
          refine ih.imp fun f hf => hf.cons ?_
          cases type
          · exact .inr ⟨hap, fun h => hpast ⟨rfl, h⟩⟩
          · exact .inr hap
      · rw [if_neg hap]
        have hp : ¬PassesBy type r x := by
          cases type
          · rintro (h | h)
            · exact hsk h
            · exact hap h.1
          · rintro (h | h)
            · exact hsk h
            · exact hap h
        obtain ⟨c, hc⟩ : ∃ c, classify x r = .ok c := by
          rcases classify_cases hxv hr hap with h | h | h | h | h <;> exact ⟨_, h.1⟩
        rw [hc]
        exact .hit (List.nil_append _).symm (fun _ hk => nomatch hk) hp hap hc

/-- The lock `x` of another owner conflicts with the request. -/
def Blocks (r x : Lock) : Prop :=
  x.lfId ≠ r.lfId ∧ ¬Apart x r ∧ (r.lfType = .wrlck ∨ x.lfType = .wrlck)

/-- The first lock of the list that blocks the request, if there is one. -/
def FirstBlock (r : Lock) (l : List Node) : Option Addr → Prop
  | none => ∀ k ∈ l, ¬Blocks r k.2
  | some b => ∃ mid x tl, l = mid ++ (b, x) :: tl ∧ (∀ k ∈ mid, ¬Blocks r k.2) ∧ Blocks r x

theorem FirstBlock.append {o : Option Addr} {mid : List Node} (hm : ∀ k ∈ mid, ¬Blocks r k.2)
    (h : FirstBlock r l o) : FirstBlock r (mid ++ l) o := by
  cases o with
  | none => exact fun k hk => (List.mem_append.mp hk).elim (hm k) (h k)
  | some b =>
    obtain ⟨mid', x, tl, rfl, hm', hx⟩ := h
    refine ⟨mid ++ mid', x, tl, by simp, fun k hk => ?_, hx⟩
    exact (List.mem_append.mp hk).elim (hm k) (hm' k)

theorem getblockFrom_meets (h : Lst s.lk s.links.next p rest)
    (hv : ∀ k ∈ rest, k.2.Valid) (hr : r.Valid) :
    Meets (n < rest.length ∨ m ≤ rest.length) (getblockFrom s n r m p prev)
      (FirstBlock r rest) := by
  induction m generalizing p prev rest with
  | zero => exact .inr (Nat.zero_le _)
  | succ m ih =>
    rw [getblockFrom]
    refine ((lfFindoverlap_meets h hv hr).mono .inl).bind fun f hf => ?_
    have hpass : ∀ k : Node, PassesBy .others r k.2 → ¬Blocks r k.2 := fun k hk hb =>
      hk.elim hb.1 hb.2.1
    cases hf with
    | none hm => exact fun k hk => hpass k (hm k hk)
    | past he hm hp ha => exact absurd (.inr ha) hp
    | @hit mid b x tl c he hm hp ha hc =>
      have hid : x.lfId ≠ r.lfId := fun h => hp (.inl h)
      rw [he] at h
      obtain ⟨hx, htl⟩ := h.of_append
      dsimp only
      rw [deref_eq hx]
      show Meets _ (if _ then _ else _) _
      by_cases ht : r.lfType = .wrlck ∨ x.lfType = .wrlck
      · rw [if_pos ht]
        exact ⟨mid, x, tl, he, fun k hk => hpass k (hm k hk), hid, ha, ht⟩
      · rw [if_neg ht]
        have hlen : rest.length = mid.length + (tl.length + 1) := by rw [he]; simp
        refine ((ih htl fun k hk => hv k ?_).mono ?_).imp fun o ho => ?_
        · rw [he]
          exact List.mem_append_right _ (List.mem_cons_of_mem _ hk)
        · omega
        · rw [he, List.append_cons]
          refine ho.append fun k hk => ?_
          rcases List.mem_append.mp hk with hk | hk
          · exact hpass k (hm k hk)
          · rw [List.mem_singleton.mp hk]
            exact fun hb => ht hb.2.2

theorem lfGetblock_meets (h : Rep s ls ch) (hv : ∀ k ∈ ls r.lfInode, k.2.Valid) (hr : r.Valid) :
    Meets (n < (ls r.lfInode).length) (lfGetblock s n r) (FirstBlock r (ls r.lfInode)) :=
  (getblockFrom_meets (h.lst r.lfInode) hv hr).mono fun h => by omega

/-! ## Setting a lock -/

variable {W : List Addr} {s' : State} {ls' : Ino → List Node} {ch' : Addr → List Node}
  {w : Int} {ntl : Bool} {mid tl : List Node}

theorem setList_append (hm : ∀ k ∈ mid, Passes r k.2) :
    setList a r c w ntl (mid ++ tl) = mid ++ setList a r c w ntl tl := by
  induction mid with
  | nil => rfl
  | cons k mid ih =>
    rw [List.forall_mem_cons] at hm
    rw [List.cons_append, setList, if_pos hm.1, ih hm.2, List.cons_append]

/-- Setting `r` inside of the own lock `x` takes a third lock. -/
structure Splits (r x : Lock) : Prop where
  passes : ¬Passes r x
  apart : ¬Apart x r
  contains : classify x r = .ok .contains
  type : x.lfType ≠ r.lfType
  start_ne : x.lfStart ≠ r.lfStart
  end_ne : x.lfEnd ≠ r.lfEnd

/-- What the loop of `lf_setlock` comes to, from the locks `rest` of the list on. -/
inductive SetPost (a : Addr) (r : Lock) (s : State) (ls : Ino → List Node)
    (ch : Addr → List Node) (pre rest : List Node) (ntl : Bool) : State × Outcome → Prop
  | done {W : List Addr} {s' : State} {ls' : Ino → List Node} {ch' : Addr → List Node} : Edit a r s ls ch W s' ls' ch' →
    (∀ c, ls' = Function.update ls r.lfInode
      (pre ++ setList a r c (wrap (r.lfEnd + 1)) ntl rest)) →
    Listed ls' a ∨ (¬Listed ls' a ∧ s'.lk a = none) →
    SetPost a r s ls ch pre rest ntl (s', .done)
  | split {mid tl : List Node} {b : Addr} {x : Lock} : ntl = true → rest = mid ++ (b, x) :: tl → (∀ k ∈ mid, Passes r k.2) →
    Splits r x → SetPost a r s ls ch pre rest ntl (s, .split b a)

/-- The rest of the loop after an edit. -/
theorem SetPost.of_edit {pre' : List Node} {q : State × Outcome}
    (he : Edit a r s ls ch W s' ls' ch') (hp : SetPost a r s' ls' ch' pre' tl false q)
    (hl : ∀ c, Function.update ls' r.lfInode
        (pre' ++ setList a r c (wrap (r.lfEnd + 1)) false tl) =
      Function.update ls r.lfInode (pre ++ setList a r c (wrap (r.lfEnd + 1)) ntl rest)) :
    SetPost a r s ls ch pre rest ntl q := by
  cases hp with
  | done he' hl' ha => exact .done (he.trans he') (fun c => (hl' c).trans (hl c)) ha
  | split h => cases h

/-- Where the loop of `lf_setlock` stands: before the locks `rest` of the list, the request not
yet linked, or linked and, of the own locks, only ones that start behind it ahead. -/
structure SetAt (a : Addr) (r : Lock) (s : State) (ls : Ino → List Node)
    (ch : Addr → List Node) (pre rest : List Node) (ntl : Bool) : Prop where
  rep : Rep s ls ch
  list : ls r.lfInode = pre ++ rest
  lk : s.lk a = some r
  ordered : Ordered rest
  valid : ∀ k ∈ rest, k.2.Valid
  off : ¬On ch a
  new : ntl = true → ¬Listed ls a ∧ s.block a = none
  old : ntl = false → a ∈ addrs pre ∧ ∀ k ∈ rest, k.2.lfId = r.lfId → r.lfStart < k.2.lfStart

theorem SetAt.append (h : SetAt a r s ls ch pre (mid ++ tl) ntl) :
    SetAt a r s ls ch (pre ++ mid) tl ntl where
  rep := h.rep
  list := by rw [h.list, List.append_assoc]
  lk := h.lk
  ordered := (List.pairwise_append.mp h.ordered).2.1
  valid k hk := h.valid k (List.mem_append_right _ hk)
  off := h.off
  new := h.new
  old hn := ⟨by simp [(h.old hn).1], fun k hk => (h.old hn).2 k (List.mem_append_right _ hk)⟩

/-- The request is not the lock that the loop has come to. -/
theorem SetAt.ne (h : SetAt a r s ls ch pre ((b, x) :: tl) ntl) : a ≠ b := by
  rintro rfl
  cases ntl with
  | true => exact (h.new rfl).1 ⟨r.lfInode, by simp [h.list]⟩
  | false =>
    refine h.rep.not_mem h.list ?_
    rw [addrs, List.map_append]
    exact List.mem_append_left _ (h.old rfl).1

/-- The chain of the request; an unlisted one has none. -/
theorem SetAt.chain (h : SetAt a r s ls ch pre rest ntl) :
    Lst s.lk s.block (s.block a) (ch a) := by
  cases ntl with
  | true =>
    rw [(h.new rfl).2, h.rep.nil a (h.new rfl).1]
    rfl
  | false => exact h.rep.chain a ⟨r.lfInode, by simp [h.list, (h.old rfl).1]⟩

/-- An own lock that starts no later is met only while the request is not linked. -/
theorem SetAt.ntl_eq (h : SetAt a r s ls ch pre ((b, x) :: tl) ntl) (hid : x.lfId = r.lfId)
    (hle : x.lfStart ≤ r.lfStart) : ntl = true := by
  cases ntl with
  | true => rfl
  | false =>
    have : r.lfStart < x.lfStart := (h.old rfl).2 _ List.mem_cons_self hid
    omega

theorem SetPost.of_append {q : State × Outcome} (hm : ∀ k ∈ mid, Passes r k.2)
    (h : SetPost a r s ls ch (pre ++ mid) tl ntl q) :
    SetPost a r s ls ch pre (mid ++ tl) ntl q := by
  cases h with
  | done he hl ha =>
    refine .done he (fun c => ?_) ha
    rw [hl c, setList_append hm, List.append_assoc]
  | @split mid' tl b x hn he hm' hs =>
    refine .split hn (by rw [he, List.append_assoc]) (fun k hk => ?_) hs
    exact (List.mem_append.mp hk).elim (hm k) (hm' k)

/-- There are enough turns for the scans and for every chain ahead. -/
def Enough (n : ℕ) (ch : Addr → List Node) (rest : List Node) : Prop :=
  rest.length ≤ n ∧ ∀ k ∈ rest, (ch k.1).length < n

theorem Enough.tail (h : Enough n ch (mid ++ (b, x) :: tl))
    (hc : ∀ k ∈ tl, ch' k.1 = ch k.1) : Enough n ch' tl := by
  refine ⟨?_, fun k hk => ?_⟩
  · have := h.1
    simp only [List.length_append, List.length_cons] at this
    omega
  · rw [hc k hk]
    exact h.2 k (by simp [hk])

theorem not_passes_id (h : ¬PassesBy .self r x) : x.lfId = r.lfId := not_not.mp fun hid => h (.inl hid)

/-- No more own locks overlap: the request is linked, unless it is already. -/
theorem setFrom_clear (h : SetAt a r s ls ch pre (mid ++ tl) ntl) (hm : ∀ k ∈ mid, Passes r k.2)
    (hl : ∀ c, setList a r c (wrap (r.lfEnd + 1)) ntl tl = if ntl then (a, r) :: tl else tl) :
    Meets F (if ntl then
        (return ((s.setLink (last (.head r.lfInode) (pre ++ mid)) (some a)).setLink (.next a)
          (first tl), .done) : Except Fault (State × Outcome))
      else return (s, .done)) (SetPost a r s ls ch pre (mid ++ tl) ntl) := by
  have h' := h.append
  cases ntl with
  | true =>
    have he := Edit.insert h'.rep h'.list (h'.new rfl).1 h'.off h'.lk rfl (h'.new rfl).2
    rw [h'.rep.get_last h'.list] at he
    refine SetPost.done he (fun c => ?_) (.inl ⟨r.lfInode, by simp⟩)
    rw [setList_append hm, hl c, if_pos rfl, List.append_assoc]
  | false =>
    refine SetPost.done (Edit.refl h.rep) (fun c => ?_) (.inl ⟨r.lfInode, ?_⟩)
    · rw [setList_append hm, hl c, if_neg Bool.false_ne_true, ← h.list, Function.update_eq_self]
    · simp [h.list, (h.old rfl).1]

/-- Case 1: the own lock takes the type, and the request is freed. -/
theorem setFrom_equal (h : SetAt a r s ls ch pre ((b, x) :: tl) true) (ht : r.lfType ≠ .unlck)
    (hF : ¬F → (ch b).length < n)
    (hl : ∀ c, setList a r c (wrap (r.lfEnd + 1)) true ((b, x) :: tl) =
      (b, { x with lfType := r.lfType }) :: tl) :
    Meets F (if r.lfType = .rdlck ∧ x.lfType = .wrlck then do
        let s ← lfWakelock s n b
        return ((s.setLk b { x with lfType := r.lfType }).free a, Outcome.done)
      else return ((s.setLk b { x with lfType := r.lfType }).free a, Outcome.done))
      (SetPost a r s ls ch pre ((b, x) :: tl) true) := by
  have hbl : Listed ls b := ⟨r.lfInode, by simp [h.list]⟩
  have hxi : x.lfInode = r.lfInode := h.rep.inode r.lfInode (b, x) (by simp [h.list])
  have hnl : ¬Listed (Function.update ls r.lfInode
      (pre ++ (b, { x with lfType := r.lfType }) :: tl)) a := by
    rw [listed_iff_of_eq (by simp [h.list])]
    exact (h.new rfl).1
  have hpost : ∀ W s₁ ch₁, Edit a r s ls ch W s₁ ls ch₁ →
      (ch₁ b = [] ∨ Stronger x { x with lfType := r.lfType }) →
      SetPost a r s ls ch pre ((b, x) :: tl) true
        ((s₁.setLk b { x with lfType := r.lfType }).free a, .done) := by
    intro W s₁ ch₁ he hk
    have hstore := Edit.store (a := a) (r := r) he.rep h.list
      (y := { x with lfType := r.lfType }) hxi hk
    have hwrite := Edit.write (r := r) hstore.rep hnl (fun hon => h.off ((he.on a).mp hon).1) none
    exact .done ((he.trans hstore).trans hwrite) (fun c => by rw [hl c])
      (.inr ⟨hnl, Function.update_self _ _ _⟩)
  split_ifs with hd
  · refine ((lfWakelock_meets h.rep hbl).mono fun hlt => ?_).bind fun s₁ hs => ?_
    · by_contra hn
      have := hF hn
      omega
    · rw [hs]
      exact hpost _ _ _ (Edit.wake h.rep hbl) (.inl (Function.update_self _ _ _))
  · refine hpost _ _ _ (Edit.refl h.rep) (.inr ⟨rfl, rfl, rfl, rfl, fun hx => ?_⟩)
    show r.lfType = .wrlck
    cases hrt : r.lfType with
    | rdlck => exact absurd ⟨hrt, hx⟩ hd
    | wrlck => rfl
    | unlck => exact absurd hrt ht

/-- An own lock behind the request, or around it, gives up its front, and its chain is woken. -/
theorem setFrom_store {pre₁ tl₁ : List Node}
    {s₁ : State} {ls₁ : Ino → List Node} {y : Lock} (he : Edit a r s ls ch [] s₁ ls₁ ch)
    (hi : ls₁ = Function.update ls r.lfInode (pre₁ ++ (b, x) :: tl₁)) (hy : y.lfInode = r.lfInode)
    (ha : Listed ls₁ a) (hF : ¬F → (ch b).length < n)
    (hl : ∀ c, setList a r c (wrap (r.lfEnd + 1)) ntl ((b, x) :: tl) =
      pre₁.drop pre.length ++ (b, y) :: tl₁) (hpre : pre <+: pre₁) :
    Meets F (lfWakelock (s₁.setLk b y) n b) fun s' =>
      SetPost a r s ls ch pre ((b, x) :: tl) ntl (s', .done) := by
  have hi₁ : ls₁ r.lfInode = pre₁ ++ (b, x) :: tl₁ := by rw [hi, Function.update_self]
  refine ((lfWakelock_store (a := a) (r := r) he.rep hi₁ hy).mono fun hlt => ?_).imp
    fun s' hs => ?_
  · by_contra hn
    have := hF hn
    omega
  · refine .done (he.trans hs) (fun c => ?_) (.inl ?_)
    · obtain ⟨d, rfl⟩ := hpre
      rw [hl c, hi, Function.update_idem, List.drop_left, List.append_assoc]
    · refine (listed_iff_of_eq ?_).mpr ha
      rw [hi₁]
      simp

/-- Case 2: the own lock has the type already, or gives up the bytes of the request. -/
theorem setFrom_contains (h : SetAt a r s ls ch pre ((b, x) :: tl) true) (hp : ¬Passes r x)
    (hap : ¬Apart x r) (hc : classify x r = .ok .contains) (hF : ¬F → (ch b).length < n) :
    Meets F (if x.lfType = r.lfType then return (s.free a, .done)
      else if x.lfStart = r.lfStart then
        return (← lfWakelock (((s.setLink (last (.head r.lfInode) pre) (some a)).setLink (.next a)
          (some b)).setLk b { x with lfStart := wrap (r.lfEnd + 1) }) n b, .done)
      else do
        match ← lfSplit s b a with
        | some s => return (← lfWakelock s n b, .done)
        | none => return (s, .split b a))
      (SetPost a r s ls ch pre ((b, x) :: tl) true) := by
  have hxi : x.lfInode = r.lfInode := h.rep.inode r.lfInode (b, x) (by simp [h.list])
  have hlk : s.lk b = some x := (h.rep.lst r.lfInode).val_eq (by simp [h.list])
  split_ifs with h₁ h₂
  · have hwrite := Edit.write (r := r) h.rep (h.new rfl).1 h.off none
    refine SetPost.done hwrite (fun c => ?_) (.inr ⟨(h.new rfl).1, Function.update_self _ _ _⟩)
    simp only [setList, if_neg hp, if_neg hap, hc, if_pos h₁]
    rw [← h.list, Function.update_eq_self]
  · have he := Edit.insert h.rep h.list (h.new rfl).1 h.off h.lk rfl (h.new rfl).2
    rw [h.rep.get_last h.list] at he
    have hi : Function.update ls r.lfInode (pre ++ (a, r) :: (b, x) :: tl) =
        Function.update ls r.lfInode ((pre ++ [(a, r)]) ++ (b, x) :: tl) := by simp
    refine Meets.bind (setFrom_store he hi hxi ⟨r.lfInode, by simp⟩ hF (fun c => ?_)
      (List.prefix_append _ _)) fun s' hs => hs
    simp [setList, if_neg hp, if_neg hap, hc, if_neg h₁, if_pos h₂]
  · by_cases h₃ : x.lfEnd = r.lfEnd
    · have he := Edit.insertAfter h.rep h.list (h.new rfl).1 h.off h.lk rfl (h.new rfl).2
      have hsplit : lfSplit s b a = .ok (some
          (((s.setLink (.next a) (s.links.next b)).setLink (.next b) (some a)).setLk b
            { x with lfEnd := r.lfStart - 1 })) := by
        rw [lfSplit, deref_eq hlk, deref_eq h.lk]
        show (if _ then _ else if _ then _ else _) = _
        rw [if_neg h₂, if_pos h₃]
        rfl
      rw [hsplit]
      show Meets F (lfWakelock (State.setLk _ b { x with lfEnd := r.lfStart - 1 }) n b >>=
        fun s' => .ok (s', Outcome.done)) _
      refine Meets.bind (setFrom_store he rfl hxi ⟨r.lfInode, by simp⟩ hF (fun c => ?_)
        (List.prefix_refl _)) fun s' hs => hs
      simp [setList, if_neg hp, if_neg hap, hc, if_neg h₁, if_neg h₂, if_pos h₃]
    · have hsplit : lfSplit s b a = .ok none := by
        rw [lfSplit, deref_eq hlk, deref_eq h.lk]
        show (if _ then _ else if _ then _ else _) = _
        rw [if_neg h₂, if_neg h₃]
        rfl
      rw [hsplit]
      exact .split rfl (List.nil_append _).symm (fun _ hk => by cases hk)
        ⟨hp, hap, hc, h₁, h₂, h₃⟩

/-- Case 5: the own lock behind the request gives up its front. -/
theorem setFrom_endsAfter (h : SetAt a r s ls ch pre ((b, x) :: tl) ntl)
    (hF : ¬F → (ch b).length < n)
    (hl : ∀ c, setList a r c (wrap (r.lfEnd + 1)) ntl ((b, x) :: tl) =
      if ntl then (a, r) :: (b, { x with lfStart := wrap (r.lfEnd + 1) }) :: tl
      else (b, { x with lfStart := wrap (r.lfEnd + 1) }) :: tl) :
    Meets F (do
      let s := if ntl then
          (s.setLink (last (.head r.lfInode) pre) (some a)).setLink (.next a) (some b)
        else s
      return (← lfWakelock (s.setLk b { x with lfStart := wrap (r.lfEnd + 1) }) n b, .done))
      (SetPost a r s ls ch pre ((b, x) :: tl) ntl) := by
  have hxi : x.lfInode = r.lfInode := h.rep.inode r.lfInode (b, x) (by simp [h.list])
  cases ntl with
  | true =>
    have he := Edit.insert h.rep h.list (h.new rfl).1 h.off h.lk rfl (h.new rfl).2
    rw [h.rep.get_last h.list] at he
    have hi : Function.update ls r.lfInode (pre ++ (a, r) :: (b, x) :: tl) =
        Function.update ls r.lfInode ((pre ++ [(a, r)]) ++ (b, x) :: tl) := by simp
    refine Meets.bind (setFrom_store he hi hxi ⟨r.lfInode, by simp⟩ hF (fun c => ?_)
      (List.prefix_append _ _)) fun s' hs => hs
    rw [hl c]
    simp
  | false =>
    have hi : ls = Function.update ls r.lfInode (pre ++ (b, x) :: tl) := by
      rw [← h.list, Function.update_eq_self]
    refine Meets.bind (setFrom_store (Edit.refl h.rep) hi hxi ⟨r.lfInode, ?_⟩ hF (fun c => ?_)
      (List.prefix_refl _)) fun s' hs => hs
    · simp [h.list, (h.old rfl).1]
    · rw [hl c]
      simp

/-- Case 4: the own lock before the request gives up its end, and the request comes behind it. -/
theorem setFrom_startsBefore (h : SetAt a r s ls ch pre ((b, x) :: tl) true)
    (hF : ¬F → (ch b).length < n) :
    Meets F (lfWakelock (((s.setLink (.next a) (s.links.next b)).setLink (.next b) (some a)).setLk b
        { x with lfEnd := r.lfStart - 1 }) n b) fun s' =>
      ∃ W, Edit a r s ls ch W s' (Function.update ls r.lfInode
        (pre ++ (b, { x with lfEnd := r.lfStart - 1 }) :: (a, r) :: tl)) (Function.update ch b []) := by
  have hxi : x.lfInode = r.lfInode := h.rep.inode r.lfInode (b, x) (by simp [h.list])
  have he := Edit.insertAfter h.rep h.list (h.new rfl).1 h.off h.lk rfl (h.new rfl).2
  have hi : Function.update ls r.lfInode (pre ++ (b, x) :: (a, r) :: tl) r.lfInode =
      pre ++ (b, x) :: (a, r) :: tl := Function.update_self _ _ _
  have hwake := lfWakelock_store (a := a) (r := r) (n := n) he.rep hi
    (y := { x with lfEnd := r.lfStart - 1 }) hxi
  refine (hwake.mono fun hlt => ?_).imp fun s' hs => ?_
  · by_contra hn
    have := hF hn
    omega
  · have := he.trans hs
    rw [Function.update_idem] at this
    exact ⟨_, this⟩

/-- The loop goes on behind the lock `b`, with the request linked. -/
theorem SetAt.next (h : SetAt a r s ls ch pre ((b, x) :: tl) ntl) (hid : x.lfId = r.lfId)
    (hend : x.lfEnd = -1 ∨ r.lfStart ≤ x.lfEnd) (he : Edit a r s ls ch W s' ls' ch')
    {pre₁ : List Node} (hi : ls' r.lfInode = pre₁ ++ tl) (ha : a ∈ addrs pre₁)
    (hlk : s'.lk a = some r) : SetAt a r s' ls' ch' pre₁ tl false where
  rep := he.rep
  list := hi
  lk := hlk
  ordered := (ordered_cons.mp h.ordered).2
  valid k hk := h.valid k (List.mem_cons_of_mem _ hk)
  off hon := h.off ((he.on a).mp hon).1
  new := nofun
  old _ := ⟨ha, fun k hk hkid => by
    have : x.lfEnd ≠ -1 ∧ x.lfEnd < k.2.lfStart :=
      (ordered_cons.mp h.ordered).1 k hk (hid.trans hkid.symm)
    omega⟩

/-- Where the loop stands once the chain of the lock it has come to is woken. -/
theorem SetAt.wake (h : SetAt a r s ls ch pre ((b, x) :: tl) ntl) :
    SetAt a r ((s.setBlock b none).woken (addrs (ch b))) ls (Function.update ch b []) pre
      ((b, x) :: tl) ntl where
  rep := h.rep.wake ⟨r.lfInode, by simp [h.list]⟩
  list := h.list
  lk := h.lk
  ordered := h.ordered
  valid := h.valid
  off hon := by
    have he := Edit.wake (a := a) (r := r) h.rep (show Listed ls b from ⟨r.lfInode, by simp [h.list]⟩)
    exact h.off ((he.on a).mp hon).1
  new hn := by
    refine ⟨(h.new hn).1, ?_⟩
    show (if a ∈ addrs (ch b) then none else Function.update s.block b none a) = none
    rw [Function.update_of_ne h.ne, (h.new hn).2, ite_self]
  old := h.old

/-- The state in which case 3 goes on, after the chain of `b` was woken or moved. -/
structure PassedOn (a : Addr) (r : Lock) (b : Addr) (x : Lock) (s : State)
    (ls : Ino → List Node) (ch : Addr → List Node) (pre tl : List Node) (ntl : Bool)
    (W : List Addr) (s₁ : State) (ch₁ : Addr → List Node) (block : Addr → Option Addr) : Prop where
  edit : Edit a r s ls ch W s₁ ls ch₁
  at' : SetAt a r s₁ ls ch₁ pre ((b, x) :: tl) ntl
  chain : Lst s₁.lk block (block a) (ch₁ b ++ ch₁ a)
  block : ∀ c, c ≠ a → c ∉ addrs (ch₁ b) → block c = s₁.block c
  merge : ch₁ b = [] ∨ Merges r x
  rest : ∀ k ∈ tl, ch₁ k.1 = ch k.1

theorem SetAt.ne_of_mem (h : SetAt a r s ls ch pre ((b, x) :: tl) ntl) {k : Node} (hk : k ∈ tl) :
    k.1 ≠ b ∧ k.1 ≠ a := by
  have hkl : k.1 ∈ addrs tl := mem_addrs.mpr ⟨k.2, hk⟩
  constructor
  · rintro he
    refine h.rep.not_mem h.list ?_
    rw [addrs, List.map_append, ← he]
    exact List.mem_append_right _ hkl
  · rintro he
    cases ntl with
    | true => exact (h.new rfl).1 ⟨r.lfInode, by
        rw [← he, h.list]
        simp only [addrs, List.map_append, List.map_cons, List.mem_append, List.mem_cons]
        exact .inr (.inr hkl)⟩
    | false =>
      have hnd := h.rep.nodup r.lfInode
      rw [h.list, addrs, List.map_append, List.nodup_append] at hnd
      exact hnd.2.2 a (h.old rfl).1 a (by rw [← he]; exact List.mem_cons_of_mem _ hkl) rfl

section PassedOn

variable {s₁ : State} {ch₁ : Addr → List Node} {block : Addr → Option Addr}

/-- The request takes the place of the lock on the list. -/
theorem PassedOn.link (h : PassedOn a r b x s ls ch pre tl true W s₁ ch₁ block)
    (hid : x.lfId = r.lfId) (hend : x.lfEnd = -1 ∨ r.lfStart ≤ x.lfEnd) :
    ∃ ls' ch', Edit a r s ls ch W (((({ s₁ with block := block }.setLink
        (last (.head r.lfInode) pre) (some a)).setLink (.next a) (s₁.links.next b)).free b)) ls' ch' ∧
      ls' = Function.update ls r.lfInode (pre ++ (a, r) :: tl) ∧
      SetAt a r (((({ s₁ with block := block }.setLink
        (last (.head r.lfInode) pre) (some a)).setLink (.next a) (s₁.links.next b)).free b))
        ls' ch' (pre ++ [(a, r)]) tl false ∧
      ∀ k ∈ tl, ch' k.1 = ch k.1 := by
  have h₁ := h.at'
  have he := Edit.supplant h₁.rep h₁.list (h₁.new rfl).1 h₁.off h₁.lk rfl (h₁.new rfl).2
    h.merge h.chain h.block
  have htrans := h.edit.trans he
  rw [List.append_nil] at htrans
  refine ⟨_, _, htrans, rfl, h₁.next hid hend he (by simp) (by simp)
    (he.rep.lk_eq (i := r.lfInode) (by simp)), fun k hk => ?_⟩
  rw [Function.update_of_ne (h₁.ne_of_mem hk).2, Function.update_of_ne (h₁.ne_of_mem hk).1, h.rest k hk]

/-- The request is on the list already, and the lock is taken out. -/
theorem PassedOn.unlink (h : PassedOn a r b x s ls ch pre tl false W s₁ ch₁ block)
    (hid : x.lfId = r.lfId) (hend : x.lfEnd = -1 ∨ r.lfStart ≤ x.lfEnd) :
    ∃ ls' ch', Edit a r s ls ch W (({ s₁ with block := block }.setLink
        (last (.head r.lfInode) pre) (s₁.links.next b)).free b) ls' ch' ∧
      ls' = Function.update ls r.lfInode (pre ++ tl) ∧
      SetAt a r (({ s₁ with block := block }.setLink
        (last (.head r.lfInode) pre) (s₁.links.next b)).free b) ls' ch' pre tl false ∧
      ∀ k ∈ tl, ch' k.1 = ch k.1 := by
  have h₁ := h.at'
  have ha : a ∈ addrs pre := (h₁.old rfl).1
  have he := Edit.absorb h₁.rep h₁.list ⟨r.lfInode, by simp [h₁.list, ha]⟩ h₁.ne h.merge h.chain
    h.block
  have htrans := h.edit.trans he
  rw [List.append_nil] at htrans
  refine ⟨_, _, htrans, rfl, h₁.next hid hend he (by simp) ha
    ((Function.update_of_ne h₁.ne _ _).trans h₁.lk), fun k hk => ?_⟩
  rw [Function.update_of_ne (h₁.ne_of_mem hk).2, Function.update_of_ne (h₁.ne_of_mem hk).1, h.rest k hk]

end PassedOn

theorem setFrom_wakes (h : SetAt a r s ls ch pre ((b, x) :: tl) ntl) (hF : ¬F → (ch b).length < n) :
    Meets F (lfWakelock s n b) fun s' => ∃ W s₁ ch₁ block,
      PassedOn a r b x s ls ch pre tl ntl W s₁ ch₁ block ∧ s' = { s₁ with block := block } := by
  have hbl : Listed ls b := ⟨r.lfInode, by simp [h.list]⟩
  refine ((lfWakelock_meets h.rep hbl).mono fun hlt => ?_).imp fun s' hs => ?_
  · by_contra hn
    have := hF hn
    omega
  · refine ⟨_, _, _, _, ⟨Edit.wake h.rep hbl, h.wake, ?_, fun _ _ _ => rfl,
      .inl (Function.update_self _ _ _), fun k hk => ?_⟩, hs⟩
    · rw [Function.update_self]
      exact h.wake.chain
    · exact Function.update_of_ne (h.ne_of_mem hk).1 _ _

theorem setFrom_moves (h : SetAt a r s ls ch pre ((b, x) :: tl) ntl) (hF : ¬F → (ch b).length < n)
    (hm : Merges r x) :
    Meets F (lfAddblock (s.setBlock a (s.block b)) n a (s.block a)) fun s' => ∃ W s₁ ch₁ block,
      PassedOn a r b x s ls ch pre tl ntl W s₁ ch₁ block ∧ s' = { s₁ with block := block } := by
  have hbl : Listed ls b := ⟨r.lfInode, by simp [h.list]⟩
  refine ((lfAddblock_meets h.rep hbl h.ne h.off h.lk h.chain).mono fun hle => ?_).imp
    fun s' ⟨block, hs, hchain, hblock⟩ => ?_
  · by_contra hn
    have := hF hn
    omega
  · exact ⟨_, _, _, _, ⟨Edit.refl h.rep, h, hchain, hblock, .inr hm, fun _ _ => rfl⟩, hs⟩

/-- The loop of `lf_setlock`. -/
theorem setFrom_meets (h : SetAt a r s ls ch pre rest ntl) (hr : r.Valid)
    (ht : r.lfType ≠ .unlck) (hF : ¬F → Enough n ch rest ∧ rest.length < m) :
    Meets F (setFrom n a m s (last (.head r.lfInode) pre) (first rest) ntl)
      (SetPost a r s ls ch pre rest ntl) := by
  induction m generalizing s ls ch pre rest ntl with
  | zero =>
    by_contra hn
    exact absurd (hF hn).2 (Nat.not_lt_zero _)
  | succ m ih =>
    have hlst : Lst s.lk s.links.next (first rest) rest := by
      have := h.rep.lst r.lfInode
      rw [h.list] at this
      have := (lst_append (r := .head r.lfInode) |>.mp this).2
      rwa [this.eq_first] at this
    rw [setFrom, deref_eq h.lk]
    show Meets F (lfFindoverlap s r .self n _ _ >>= _) _
    refine ((lfFindoverlap_meets hlst h.valid hr).mono fun hlt => ?_).bind fun f hf => ?_
    · by_contra hn
      have := (hF hn).1.1
      omega
    cases hf with
    | none hm =>
      replace hm : ∀ k ∈ rest, Passes r k.2 := hm
      rw [← List.append_nil rest] at h
      have := setFrom_clear (F := F) h hm fun c => rfl
      rw [List.append_nil] at this
      rw [← last_append]
      exact this
    | @past mid b x tl he hm hp hap =>
      subst he
      replace hm : ∀ k ∈ mid, Passes r k.2 := hm
      replace hp : ¬Passes r x := hp
      rw [← last_append]
      refine setFrom_clear h hm fun c => ?_
      rw [setList, if_neg hp, if_pos hap]
    | @hit mid b x tl c he hm hp hap hc =>
      subst he
      replace hm : ∀ k ∈ mid, Passes r k.2 := hm
      replace hp : ¬Passes r x := hp
      have hid : x.lfId = r.lfId := not_passes_id hp
      have h := h.append
      have hx : x.Valid := h.valid _ List.mem_cons_self
      have hlk : s.lk b = some x := (h.rep.lst r.lfInode).val_eq (by simp [h.list])
      have hbl : Listed ls b := ⟨r.lfInode, by simp [h.list]⟩
      have hxi : x.lfInode = r.lfInode := h.rep.inode r.lfInode (b, x) (by simp [h.list])
      have hcases := classify_cases hx hr hap
      rw [hc] at hcases
      have hset : ∀ c, setList a r c (wrap (r.lfEnd + 1)) ntl (mid ++ (b, x) :: tl) =
          mid ++ setList a r c (wrap (r.lfEnd + 1)) ntl ((b, x) :: tl) := fun c =>
        setList_append hm
      have hfuel : ¬F → (ch b).length < n := fun hn => (hF hn).1.2 (b, x) (by simp)
      dsimp only
      rw [deref_eq hlk, ← last_append]
      cases c with
      | equal =>
        simp only [Except.ok.injEq, reduceCtorEq, false_and, or_false, true_and] at hcases
        obtain rfl := h.ntl_eq hid hcases.1.le
        refine (setFrom_equal h ht hfuel fun c => ?_).imp fun q hq => hq.of_append hm
        simp only [setList, if_neg hp, if_neg hap, hc]
      | contains =>
        simp only [Except.ok.injEq, reduceCtorEq, false_and, or_false, false_or, true_and] at hcases
        obtain rfl := h.ntl_eq hid hcases.1
        exact (setFrom_contains h hp hap hc hfuel).imp fun q hq => hq.of_append hm
      | within =>
        simp only [Except.ok.injEq, reduceCtorEq, false_and, or_false, false_or, true_and] at hcases
        have hxr := hx.end_eq_or
        have hend : x.lfEnd = -1 ∨ r.lfStart ≤ x.lfEnd := by omega
        have henough : ∀ ch', (∀ k ∈ tl, ch' k.1 = ch k.1) → ¬F → Enough n ch' tl ∧ tl.length < m :=
          fun ch' hch hn => ⟨(hF hn).1.tail hch, by
            have := (hF hn).2
            simp only [List.length_append, List.length_cons] at this
            omega⟩
        have hrest : ∀ s', (∃ W s₁ ch₁ block,
            PassedOn a r b x s ls ch (pre ++ mid) tl ntl W s₁ ch₁ block ∧
              s' = { s₁ with block := block }) →
            Meets F (if ntl then
                setFrom n a m (((s'.setLink (last (.head r.lfInode) (pre ++ mid)) (some a)).setLink
                  (.next a) (s'.links.next b)).free b) (.next a) (s.links.next b) false
              else
                setFrom n a m ((s'.setLink (last (.head r.lfInode) (pre ++ mid))
                  (s'.links.next b)).free b) (last (.head r.lfInode) (pre ++ mid))
                  (s.links.next b) false)
              (SetPost a r s ls ch pre (mid ++ (b, x) :: tl) ntl) := by
          rintro - ⟨W, s₁, ch₁, block, hpass, rfl⟩
          rw [h.rep.next_eq h.list]
          cases ntl with
          | true =>
            obtain ⟨ls', ch', he, rfl, hat, hch⟩ := hpass.link hid hend
            have hrec := ih hat (henough ch' hch)
            rw [last_concat] at hrec
            refine hrec.imp fun q hq => hq.of_edit he fun c => ?_
            rw [Function.update_idem, hset c]
            simp [setList, if_neg hp, if_neg hap, hc]
          | false =>
            obtain ⟨ls', ch', he, rfl, hat, hch⟩ := hpass.unlink hid hend
            refine (ih hat (henough ch' hch)).imp fun q hq => hq.of_edit he fun c => ?_
            rw [Function.update_idem, hset c]
            simp [setList, if_neg hp, if_neg hap, hc]
        show Meets F (if r.lfType = .rdlck ∧ x.lfType = .wrlck then lfWakelock s n b >>= _
          else lfAddblock _ n a _ >>= _) _
        by_cases hd : r.lfType = .rdlck ∧ x.lfType = .wrlck
        · rw [if_pos hd]
          exact Meets.bind (setFrom_wakes h hfuel) hrest
        · rw [if_neg hd]
          exact Meets.bind (setFrom_moves h hfuel ⟨hid, hxi, hap, hc, hd⟩) hrest
      | startsBefore =>
        simp only [Except.ok.injEq, reduceCtorEq, false_and, or_false, false_or, true_and] at hcases
        obtain rfl := h.ntl_eq hid hcases.1.le
        show Meets F (lfWakelock (State.setLk _ b { x with lfEnd := r.lfStart - 1 }) n b >>=
          fun s' => setFrom n a m s' (.next a) (s.links.next b) false) _
        refine Meets.bind (setFrom_startsBefore h hfuel) fun s' hs' => ?_
        obtain ⟨W, he⟩ := hs'
        have hi : Function.update ls r.lfInode
            (pre ++ mid ++ (b, { x with lfEnd := r.lfStart - 1 }) :: (a, r) :: tl) r.lfInode =
            (pre ++ mid ++ [(b, { x with lfEnd := r.lfStart - 1 })] ++ [(a, r)]) ++ tl := by
          simp
        have hnext := h.next hid hcases.2.1 he hi (by simp) (he.rep.lk_eq (i := r.lfInode) (by simp))
        have hrec := ih hnext fun hn => ⟨(hF hn).1.tail fun k hk =>
          Function.update_of_ne (h.ne_of_mem hk).1 _ _, by
            have := (hF hn).2
            simp only [List.length_append, List.length_cons] at this
            omega⟩
        rw [last_concat, ← h.rep.next_eq h.list] at hrec
        refine hrec.imp fun q hq => hq.of_edit he fun c => ?_
        rw [Function.update_idem, hset c]
        simp [setList, if_neg hp, if_neg hap, hc]
      | endsAfter =>
        refine (setFrom_endsAfter h hfuel fun c => ?_).imp fun q hq => hq.of_append hm
        simp only [setList, if_neg hp, if_neg hap, hc]

/-! ## Removing a lock -/

theorem clearList_append (hm : ∀ k ∈ mid, Passes r k.2) :
    clearList r c w (mid ++ tl) = mid ++ clearList r c w tl := by
  induction mid with
  | nil => rfl
  | cons k mid ih =>
    rw [List.forall_mem_cons] at hm
    rw [List.cons_append, clearList, if_pos hm.1, ih hm.2, List.cons_append]

/-- Where the loop of `lf_clearlock` stands: before the locks `rest` of the list. -/
structure ClearAt (a : Addr) (r : Lock) (s : State) (ls : Ino → List Node)
    (ch : Addr → List Node) (pre rest : List Node) : Prop where
  rep : Rep s ls ch
  list : ls r.lfInode = pre ++ rest
  lk : s.lk a = some r
  valid : ∀ k ∈ rest, k.2.Valid
  off : ¬On ch a
  new : ¬Listed ls a
  block : s.block a = none

/-- What the loop of `lf_clearlock` comes to, from the locks `rest` of the list on. -/
inductive ClearPost (a : Addr) (r : Lock) (s : State) (ls : Ino → List Node)
    (ch : Addr → List Node) (pre rest : List Node) : State × Outcome → Prop
  | done {W : List Addr} {s' : State} {ls' : Ino → List Node} {ch' : Addr → List Node} :
    Edit a r s ls ch W s' ls' ch' →
    (∀ c, ls' = Function.update ls r.lfInode (pre ++ clearList r c (wrap (r.lfEnd + 1)) rest)) →
    ¬Listed ls' a → s'.lk a = some r →
    ClearPost a r s ls ch pre rest (s', .done)
  | split {W : List Addr} {s' : State} {ls' : Ino → List Node} {ch' : Addr → List Node}
    {pre' tl : List Node} {b : Addr} {x : Lock} :
    Edit a r s ls ch W s' ls' ch' → ¬Listed ls' a → s'.lk a = some r → s'.block a = none →
    ls' = Function.update ls r.lfInode (pre' ++ (b, x) :: tl) →
    (∀ c, pre ++ clearList r c (wrap (r.lfEnd + 1)) rest =
      pre' ++ (b, { x with lfEnd := r.lfStart - 1 }) ::
        (c, { x with lfStart := wrap (r.lfEnd + 1) }) :: tl) →
    x.lfId = r.lfId → ¬Apart x r → classify x r = .ok .contains → x.lfStart ≠ r.lfStart →
    x.lfEnd ≠ r.lfEnd → ClearPost a r s ls ch pre rest (s', .split b a)

theorem ClearAt.append (h : ClearAt a r s ls ch pre (mid ++ tl)) :
    ClearAt a r s ls ch (pre ++ mid) tl where
  rep := h.rep
  list := by rw [h.list, List.append_assoc]
  lk := h.lk
  valid k hk := h.valid k (List.mem_append_right _ hk)
  off := h.off
  new := h.new
  block := h.block

theorem ClearPost.of_append {q : State × Outcome} (hm : ∀ k ∈ mid, Passes r k.2)
    (h : ClearPost a r s ls ch (pre ++ mid) tl q) :
    ClearPost a r s ls ch pre (mid ++ tl) q := by
  cases h with
  | done he hl ha hlk =>
    refine .done he (fun c => ?_) ha hlk
    rw [hl c, clearList_append hm, List.append_assoc]
  | split he ha hlk hblk hls hl hid hap hc hs hend =>
    refine .split he ha hlk hblk hls (fun c => ?_) hid hap hc hs hend
    rw [clearList_append hm, ← List.append_assoc]
    exact hl c

/-- The rest of the loop after an edit. -/
theorem ClearPost.of_edit {pre' : List Node} {q : State × Outcome}
    (he : Edit a r s ls ch W s' ls' ch') (hp : ClearPost a r s' ls' ch' pre' tl q)
    (hls : ∃ l, ls' = Function.update ls r.lfInode l)
    (hl : ∀ c, pre' ++ clearList r c (wrap (r.lfEnd + 1)) tl =
      pre ++ clearList r c (wrap (r.lfEnd + 1)) rest) :
    ClearPost a r s ls ch pre rest q := by
  obtain ⟨l, rfl⟩ := hls
  cases hp with
  | done he' hl' ha hlk =>
    refine .done (he.trans he') (fun c => ?_) ha hlk
    rw [hl' c, Function.update_idem, hl c]
  | split he' ha hlk hblk hls hl' hid hap hc hs hend =>
    refine .split (he.trans he') ha hlk hblk (hls.trans (Function.update_idem ..)) (fun c => ?_) hid
      hap hc hs hend
    rw [← hl c, hl' c]

/-- The loop goes on after an edit. -/
theorem ClearAt.next (h : ClearAt a r s ls ch pre ((b, x) :: tl))
    (he : Edit a r s ls ch W s' ls' ch') {pre₁ : List Node} (hi : ls' r.lfInode = pre₁ ++ tl)
    (ha : ¬Listed ls' a) (hlk : s'.lk a = some r) (hblk : s'.block a = none) : ClearAt a r s' ls' ch' pre₁ tl where
  rep := he.rep
  list := hi
  lk := hlk
  valid k hk := h.valid k (List.mem_cons_of_mem _ hk)
  off hon := h.off ((he.on a).mp hon).1
  new := ha
  block := hblk

theorem not_listed_update {l : List Node} (hl : ∀ c ∈ addrs l, c ∈ addrs (ls i))
    (ha : ¬Listed ls a) : ¬Listed (Function.update ls i l) a := by
  intro hl'
  rcases listed_update.mp hl' with h | ⟨j, -, h⟩
  · exact ha ⟨i, hl a h⟩
  · exact ha ⟨j, h⟩

/-- The state after the chain of `b` is woken, from which each case goes on. -/
theorem ClearAt.wake (h : ClearAt a r s ls ch pre ((b, x) :: tl)) :
    ClearAt a r ((s.setBlock b none).woken (addrs (ch b))) ls (Function.update ch b []) pre
      ((b, x) :: tl) where
  rep := h.rep.wake ⟨r.lfInode, by simp [h.list]⟩
  list := h.list
  lk := h.lk
  valid := h.valid
  off hon := by
    have he := Edit.wake (a := a) (r := r) h.rep (show Listed ls b from ⟨r.lfInode, by simp [h.list]⟩)
    exact h.off ((he.on a).mp hon).1
  new := h.new
  block := by
    have hab : a ≠ b := fun he => h.new ⟨r.lfInode, by simp [h.list, he]⟩
    show (if a ∈ addrs (ch b) then none else Function.update s.block b none a) = none
    rw [Function.update_of_ne hab, h.block, ite_self]

/-- The own lock `b` is written. -/
theorem ClearAt.store (h : ClearAt a r s ls ch pre ((b, x) :: tl)) (hch : ch b = []) {y : Lock}
    (hy : y.lfInode = r.lfInode) :
    Edit a r s ls ch [] (s.setLk b y) (Function.update ls r.lfInode (pre ++ (b, y) :: tl)) ch ∧
      ¬Listed (Function.update ls r.lfInode (pre ++ (b, y) :: tl)) a ∧
      (s.setLk b y).lk a = some r := by
  refine ⟨Edit.store h.rep h.list hy (.inl hch), ?_, ?_⟩
  · rw [listed_iff_of_eq (by simp [h.list])]
    exact h.new
  · exact (Function.update_of_ne (fun he => h.new ⟨r.lfInode, by simp [h.list, he]⟩) _ _).trans h.lk

/-- The own lock `b` is taken out. -/
theorem ClearAt.unlink (h : ClearAt a r s ls ch pre ((b, x) :: tl)) (hch : ch b = []) :
    Edit a r s ls ch [] ((s.setLink (last (.head r.lfInode) pre) (s.links.next b)).free b)
        (Function.update ls r.lfInode (pre ++ tl)) ch ∧
      ¬Listed (Function.update ls r.lfInode (pre ++ tl)) a ∧
      ((s.setLink (last (.head r.lfInode) pre) (s.links.next b)).free b).lk a = some r := by
  refine ⟨Edit.unlink h.rep h.list hch, not_listed_update (fun c hc => ?_) h.new, ?_⟩
  · simp only [h.list, addrs, List.map_append, List.map_cons, List.mem_append, List.mem_cons] at hc ⊢
    tauto
  · exact (Function.update_of_ne (fun he => h.new ⟨r.lfInode, by simp [h.list, he]⟩) _ _).trans h.lk

/-- Case 2: the own lock gives up the bytes of the range. -/
theorem clearFrom_contains (h : ClearAt a r s ls ch pre ((b, x) :: tl)) (hch : ch b = [])
    (hp : ¬Passes r x) (hap : ¬Apart x r) (hc : classify x r = .ok .contains) :
    Meets F (if x.lfStart = r.lfStart then
        return (s.setLk b { x with lfStart := wrap (r.lfEnd + 1) }, .done)
      else do
        match ← lfSplit s b a with
        | some s => return (s.setLink (.next b) (s.links.next a), .done)
        | none => return (s, .split b a))
      (ClearPost a r s ls ch pre ((b, x) :: tl)) := by
  have hxi : x.lfInode = r.lfInode := h.rep.inode r.lfInode (b, x) (by simp [h.list])
  have hlk : s.lk b = some x := (h.rep.lst r.lfInode).val_eq (by simp [h.list])
  have hab : a ≠ b := fun he => h.new ⟨r.lfInode, by simp [h.list, he]⟩
  split_ifs with h₁
  · obtain ⟨he, hnl, hlk'⟩ := h.store hch (y := { x with lfStart := wrap (r.lfEnd + 1) }) hxi
    refine ClearPost.done he (fun c => ?_) hnl hlk'
    simp [clearList, if_neg hp, if_neg hap, hc, if_pos h₁]
  by_cases h₂ : x.lfEnd = r.lfEnd
  · have hsplit : lfSplit s b a = .ok (some
        (((s.setLk b { x with lfEnd := r.lfStart - 1 }).setLink (.next a) (s.links.next b)).setLink
          (.next b) (some a))) := by
      rw [lfSplit, deref_eq hlk, deref_eq h.lk]
      show (if _ then _ else if _ then _ else _) = _
      rw [if_neg h₁, if_pos h₂]
      rfl
    obtain ⟨he, hnl, hlk'⟩ := h.store hch (y := { x with lfEnd := r.lfStart - 1 }) hxi
    have hlink := Edit.link (r := r) he.rep hnl (s.links.next b)
    rw [hsplit]
    -- the link of `b` is first led through the range, and then back past it
    have hlinks : ((s.links.set (.next a) (s.links.next b)).set (.next b) (some a)).set (.next b)
        (((s.links.set (.next a) (s.links.next b)).set (.next b) (some a)).next a) =
        s.links.set (.next a) (s.links.next b) := by
      rw [next_set_of_ne (fun he => hab (Ref.next.inj he).symm)]
      rw [show (s.links.set (.next a) (s.links.next b)).next a = s.links.next b from
        Links.get_set_same _ (.next a) _, Links.set_set]
      refine Links.ext rfl (funext fun c => ?_)
      rcases eq_or_ne c b with rfl | hcb
      · rw [show ((s.links.set (.next a) (s.links.next c)).set (.next c) (s.links.next c)).next c =
          s.links.next c from Links.get_set_same _ (.next c) _]
        exact (next_set_of_ne (fun he => hab (Ref.next.inj he)) _).symm
      · exact next_set_of_ne (fun he => hcb (Ref.next.inj he).symm) _
    have hstate : ((((s.setLk b { x with lfEnd := r.lfStart - 1 }).setLink (.next a)
        (s.links.next b)).setLink (.next b) (some a)).setLink (.next b)
        ((((s.setLk b { x with lfEnd := r.lfStart - 1 }).setLink (.next a)
          (s.links.next b)).setLink (.next b) (some a)).links.next a)) =
        (s.setLk b { x with lfEnd := r.lfStart - 1 }).setLink (.next a) (s.links.next b) :=
      State.ext rfl hlinks rfl rfl
    show ClearPost a r s ls ch pre ((b, x) :: tl) (_, .done)
    rw [hstate]
    refine .done (he.trans hlink) (fun c => ?_) hnl hlk'
    simp [clearList, if_neg hp, if_neg hap, hc, if_neg h₁, if_pos h₂]
  · have hsplit : lfSplit s b a = .ok none := by
      rw [lfSplit, deref_eq hlk, deref_eq h.lk]
      show (if _ then _ else if _ then _ else _) = _
      rw [if_neg h₁, if_neg h₂]
      rfl
    rw [hsplit]
    have hsame : ls = Function.update ls r.lfInode (pre ++ (b, x) :: tl) := by
      rw [← h.list, Function.update_eq_self]
    refine ClearPost.split (Edit.refl h.rep) h.new h.lk h.block hsame (fun c => ?_) (not_not.mp fun hid => hp (.inl hid)) hap hc h₁ h₂
    simp [clearList, if_neg hp, if_neg hap, hc, if_neg h₁, if_neg h₂]

/-- The loop of `lf_clearlock`. -/
theorem clearFrom_meets (h : ClearAt a r s ls ch pre rest) (hr : r.Valid)
    (hF : ¬F → Enough n ch rest ∧ rest.length < m) :
    Meets F (clearFrom n a m s (last (.head r.lfInode) pre) (first rest))
      (ClearPost a r s ls ch pre rest) := by
  induction m generalizing s ls ch pre rest with
  | zero =>
    by_contra hn
    exact absurd (hF hn).2 (Nat.not_lt_zero _)
  | succ m ih =>
    have hlst : Lst s.lk s.links.next (first rest) rest := by
      have := h.rep.lst r.lfInode
      rw [h.list] at this
      have := (lst_append (r := .head r.lfInode) |>.mp this).2
      rwa [this.eq_first] at this
    have hsame : ∀ l, l = rest → ls = Function.update ls r.lfInode (pre ++ l) := fun l hl => by
      rw [hl, ← h.list, Function.update_eq_self]
    rw [clearFrom, deref_eq h.lk]
    show Meets F (lfFindoverlap s r .self n _ _ >>= _) _
    refine ((lfFindoverlap_meets hlst h.valid hr).mono fun hlt => ?_).bind fun f hf => ?_
    · by_contra hn
      have := (hF hn).1.1
      omega
    cases hf with
    | none hm =>
      refine ClearPost.done (Edit.refl h.rep) (fun c => hsame _ ?_) h.new h.lk
      have : clearList r c (wrap (r.lfEnd + 1)) (rest ++ []) = rest ++ [] := clearList_append hm
      rw [List.append_nil] at this
      exact this
    | @past mid b x tl he hm hp hap =>
      replace hp : ¬Passes r x := hp
      refine ClearPost.done (Edit.refl h.rep) (fun c => hsame _ ?_) h.new h.lk
      rw [he, clearList_append hm, clearList, if_neg hp, if_pos hap]
    | @hit mid b x tl c he hm hp hap hc =>
      subst he
      replace hm : ∀ k ∈ mid, Passes r k.2 := hm
      replace hp : ¬Passes r x := hp
      have hid : x.lfId = r.lfId := not_passes_id hp
      have h := h.append
      have hlk : s.lk b = some x := (h.rep.lst r.lfInode).val_eq (by simp [h.list])
      have hbl : Listed ls b := ⟨r.lfInode, by simp [h.list]⟩
      have hxi : x.lfInode = r.lfInode := h.rep.inode r.lfInode (b, x) (by simp [h.list])
      have hclear : ∀ c, clearList r c (wrap (r.lfEnd + 1)) (mid ++ (b, x) :: tl) =
          mid ++ clearList r c (wrap (r.lfEnd + 1)) ((b, x) :: tl) := fun c =>
        clearList_append hm
      have hfuel : ¬F → (ch b).length < n := fun hn => (hF hn).1.2 (b, x) (by simp)
      have henough : ∀ ch', (∀ k ∈ tl, ch' k.1 = ch k.1) → ¬F → Enough n ch' tl ∧ tl.length < m :=
        fun ch' hch hn => ⟨(hF hn).1.tail hch, by
          have := (hF hn).2
          simp only [List.length_append, List.length_cons] at this
          omega⟩
      dsimp only
      rw [← last_append]
      refine ((lfWakelock_meets h.rep hbl).mono fun hlt => ?_).bind fun s₁ hs => ?_
      · by_contra hn
        have := hfuel hn
        omega
      subst hs
      have hwake := Edit.wake (a := a) (r := r) h.rep hbl
      have h₁ := h.wake
      have hch : Function.update ch b [] b = [] := Function.update_self _ _ _
      have hrest : ∀ k ∈ tl, Function.update ch b [] k.1 = ch k.1 := fun k hk =>
        Function.update_of_ne (fun he => h.rep.not_mem h.list (by
          rw [addrs, List.map_append, List.mem_append, ← he]
          exact .inr (mem_addrs.mpr ⟨k.2, hk⟩))) _ _
      have hd : State.deref ((s.setBlock b none).woken (addrs (ch b))) b = .ok x := deref_eq hlk
      rw [hd]
      have hpost : ∀ q, ClearPost a r ((s.setBlock b none).woken (addrs (ch b))) ls
          (Function.update ch b []) (pre ++ mid) ((b, x) :: tl) q →
          ClearPost a r s ls ch pre (mid ++ (b, x) :: tl) q := fun q hq =>
        (hq.of_edit hwake ⟨_, (Function.update_eq_self r.lfInode ls).symm⟩ fun _ => rfl).of_append hm
      cases c with
      | equal =>
        obtain ⟨he, hnl, hlk'⟩ := h₁.unlink hch
        refine hpost _ (.done he (fun c => ?_) hnl hlk')
        simp [clearList, if_neg hp, if_neg hap, hc]
      | contains => exact (clearFrom_contains h₁ hch hp hap hc).imp hpost
      | within =>
        obtain ⟨he, hnl, hlk'⟩ := h₁.unlink hch
        have hnext := h₁.next he (Function.update_self ..) hnl hlk' h₁.block
        have hrec := ih hnext (henough _ hrest)
        rw [← h₁.rep.next_eq h₁.list] at hrec
        refine hrec.imp fun q hq => hpost q (hq.of_edit he ⟨_, rfl⟩ fun c => ?_)
        simp [clearList, if_neg hp, if_neg hap, hc]
      | startsBefore =>
        obtain ⟨he, hnl, hlk'⟩ := h₁.store hch (y := { x with lfEnd := r.lfStart - 1 }) hxi
        have hi : Function.update ls r.lfInode
            (pre ++ mid ++ (b, { x with lfEnd := r.lfStart - 1 }) :: tl) r.lfInode =
            (pre ++ mid ++ [(b, { x with lfEnd := r.lfStart - 1 })]) ++ tl := by simp
        have hrec := ih (h₁.next he hi hnl hlk' h₁.block) (henough _ hrest)
        rw [last_concat, ← h₁.rep.next_eq h₁.list] at hrec
        refine hrec.imp fun q hq => hpost q (hq.of_edit he ⟨_, rfl⟩ fun c => ?_)
        simp [clearList, if_neg hp, if_neg hap, hc]
      | endsAfter =>
        obtain ⟨he, hnl, hlk'⟩ := h₁.store hch (y := { x with lfStart := wrap (r.lfEnd + 1) }) hxi
        refine hpost _ (.done he (fun c => ?_) hnl hlk')
        simp [clearList, if_neg hp, if_neg hap, hc]

end Lockf
