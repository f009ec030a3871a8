import Mathlib
import NetBsd.Kern.DescripTables

/-!
# File descriptors received in messages

`unp_externalize` of `kern/uipc_usrreq.c` gives the receiver of a message a descriptor for each file
in it, or disposes of the files when `fdavail` says that there are too few descriptors. It takes the
answer the wrong way round.

## Main definitions

* `fdavail`: whether `n` descriptors are available
* `openAll`: descriptors for some files, one `fdalloc` for each
* `unpExternalize`: the function, with the counts of files in messages
* `Externalizes`: what it is for

## Main results

* `openAll_avail`: `fdavail` finds the descriptors that `fdalloc` will
* `unpExternalize_iff`: the function works for empty messages to processes with no descriptor left,
  and for no others
-/

namespace Descrip

/-- The loop of `fdavail` over the descriptors that are left. -/
def availLoop : List (Option FileId) → ℤ → Bool
  | [], _ => false
  | fp :: l, n =>
    if fp = none then (if n - 1 ≤ 0 then true else availLoop l (n - 1)) else availLoop l n

/-- `fdavail`: whether `n` descriptors are available. -/
def fdavail (lim : BitVec 32) (t : Filedesc) (n : ℤ) : Bool :=
  let i := (lim - BitVec.ofNat 32 t.fd_nfiles).toInt
  if 0 < i ∧ n - i ≤ 0 then true
  else availLoop (t.fd_ofiles.drop t.fd_freefile.toNat) (if 0 < i then n - i else n)

/-- The files, how often each is in messages, and `unp_rights`. -/
structure Rights where
  files : Files
  msgcount : FileId → ℤ
  unpRights : ℤ

/-- A file is no longer in the message. -/
def Rights.leave (R : Rights) (fp : FileId) : Rights :=
  { R with msgcount := Function.update R.msgcount fp (R.msgcount fp - 1), unpRights := R.unpRights - 1 }

/-- `unp_discard`. -/
def unpDiscard (R : Rights) (fp : FileId) : Except Stop Rights :=
  (closef fp (R.leave fp).files).map fun F => { R.leave fp with files := F }

/-- What a message holds in place of a file. -/
inductive Word where
  | null
  | fd (f : ℕ)
  deriving DecidableEq

/-- The table, the files and the message after the function, and whether it returns `EMSGSIZE`. -/
structure Received where
  table : Filedesc
  rights : Rights
  words : List Word
  emsgsize : Bool

/-- The files are disposed of, one after the other. -/
def discardAll : List FileId → Rights → Except Stop Rights
  | [], R => .ok R
  | fp :: l, R => (unpDiscard R fp).bind (discardAll l)

/-- The loop of `unp_externalize` that gives out descriptors. -/
def externalizeLoop (lim : BitVec 32) :
    List FileId → Filedesc → Rights → Except Stop (Filedesc × Rights × List Word)
  | [], t, R => .ok (t, R, [])
  | fp :: l, t, R =>
    match fdalloc lim 0 t with
    | (_, none) => .error (.panic "unp_externalize")
    | (t, some f) =>
      (externalizeLoop lim l (t.setFile f (some fp)) (R.leave fp)).map fun r =>
        (r.1, r.2.1, .fd f :: r.2.2)

/-- `unp_externalize`, for the files in a message. -/
def unpExternalize (lim : BitVec 32) (rp : List FileId) (t : Filedesc) (R : Rights) :
    Except Stop Received :=
  if fdavail lim t rp.length then
    (discardAll rp R).map fun R => ⟨t, R, rp.map fun _ => .null, true⟩
  else
    (externalizeLoop lim rp t R).map fun r => ⟨r.1, r.2.1, r.2.2, false⟩

/-! ## What it is for -/

/-- Descriptors for the files, if there are enough: the table with them. -/
def openAll (lim : BitVec 32) : List FileId → Filedesc → Option (Filedesc × List ℕ)
  | [], t => some (t, [])
  | fp :: l, t =>
    match fdalloc lim 0 t with
    | (_, none) => none
    | (t, some f) => (openAll lim l (t.setFile f (some fp))).map fun r => (r.1, f :: r.2)

/-- The files are in the table, each in a descriptor of its own that was not in use, and no longer
in the message. -/
structure Installs (rp : List FileId) (t : Filedesc) (R : Rights) (r : Received) : Prop where
  success : r.emsgsize = false
  fds : ∃ fds : List ℕ, r.words = fds.map .fd ∧ fds.Nodup ∧ (∀ f ∈ fds, t.slot f = none) ∧
    fds.map r.table.slot = rp.map some ∧ ∀ j ∉ fds, r.table.slot j = t.slot j
  rights : r.rights = rp.foldl Rights.leave R

/-- All files are installed if that many descriptors can be opened. Otherwise none is, each is
disposed of once, and the error is `EMSGSIZE`. There is no panic for want of descriptors, and when
`fdavail` finds enough of them `fdalloc` does too. -/
structure Externalizes (lim : BitVec 32) (rp : List FileId) (t : Filedesc) (R : Rights) : Prop where
  enough : (openAll lim rp t).isSome → ∃ r, unpExternalize lim rp t R = .ok r ∧ Installs rp t R r
  tooFew : openAll lim rp t = none → ∀ R', discardAll rp R = .ok R' →
    unpExternalize lim rp t R = .ok ⟨t, R', rp.map fun _ => .null, true⟩
  nopanic : unpExternalize lim rp t R ≠ .error (.panic "unp_externalize")
  predicts : fdavail lim t rp.length = true → (openAll lim rp t).isSome

variable {lim : BitVec 32} {t t' : Filedesc} {i : ℕ} {rp : List FileId} {R : Rights}

/-! ## Counting descriptors -/

/-- The descriptors that `fdalloc` may give out are below this. -/
def reach (lim : BitVec 32) (t : Filedesc) : ℕ :=
  if lim.toInt ≤ t.fd_nfiles then min t.fd_nfiles lim.toNat else lim.toNat

/-- How many of them are free. -/
def room (lim : BitVec 32) (t : Filedesc) : ℕ :=
  ((Finset.range (reach lim t)).filter fun j => t.slot j = none).card

theorem take_slot {want : ℤ} (j : ℕ) : (take want i t).slot j = t.slot j := by
  unfold take
  dsimp only
  split
  · change ((t.setFlag i 0).raise i).slot j = _
    rw [slot_raise, slot_setFlag]
  · rw [slot_raise, slot_setFlag]

theorem take_nfiles {want : ℤ} : (take want i t).fd_nfiles = t.fd_nfiles := by
  unfold take
  dsimp only
  split
  · change ((t.setFlag i 0).raise i).fd_nfiles = _
    rw [nfiles_raise, nfiles_setFlag]
  · rw [nfiles_raise, nfiles_setFlag]

/-- A descriptor that `fdalloc` gives out is free and within reach. The table holds what it held. -/
structure Gives (lim : BitVec 32) (t t' : Filedesc) (i : ℕ) : Prop where
  free : t.slot i = none
  lt : i < reach lim t
  slot : ∀ j, t'.slot j = t.slot j
  reach : reach lim t' = reach lim t
  nfiles : i < t'.fd_nfiles

theorem fdallocLoop_gives {n : ℕ} (h : fdallocLoop lim 0 n t = (t', some i)) :
    Gives lim t t' i := by
  induction n generalizing t with
  | zero => cases h
  | succ n ih =>
    rw [fdallocLoop] at h
    cases hs : searchFrom t.fd_ofiles (searchStart 0 t)
        (min t.fd_nfiles lim.toNat - searchStart 0 t) with
    | some k =>
      simp only [hs] at h
      obtain ⟨rfl, hk⟩ := Prod.mk.inj h
      obtain rfl := Option.some.inj hk
      obtain ⟨h₁, h₂, h₃, -⟩ := searchFrom_some hs
      refine ⟨(slot_eq_none_iff t k).mpr (.inr h₃), ?_, take_slot, ?_, ?_⟩
      · rw [reach]
        split <;> omega
      · rw [reach, reach, take_nfiles]
      · rw [take_nfiles]
        omega
    | none =>
      simp only [hs] at h
      by_cases hle : lim.toInt ≤ t.fd_nfiles
      · rw [if_pos hle] at h
        cases h
      · rw [if_neg hle] at h
        obtain ⟨h₁, h₂, h₃, h₄, h₅⟩ := ih h
        have hreach : reach lim (expand t) = reach lim t := by
          have hcond := lim.toInt_eq_toNat_cond
          rw [reach, reach, if_neg hle]
          split_ifs at hcond ⊢ <;> omega
        exact ⟨(expand_slot i).symm.trans h₁, hreach ▸ h₂,
          fun j => (h₃ j).trans (expand_slot j), h₄.trans hreach, h₅⟩

theorem Gives.room (h : Gives lim t t' i) (fp : FileId) :
    room lim (t'.setFile i (some fp)) + 1 = room lim t := by
  have hreach : Descrip.reach lim (t'.setFile i (some fp)) = Descrip.reach lim t := by
    rw [← h.reach, Descrip.reach, Descrip.reach, nfiles_setFile]
  have hmem : i ∈ (Finset.range (Descrip.reach lim t)).filter fun j => t.slot j = none :=
    Finset.mem_filter.mpr ⟨Finset.mem_range.mpr h.lt, h.free⟩
  rw [Descrip.room, Descrip.room, hreach, ← Finset.card_erase_add_one hmem]
  congr 2
  ext j
  rw [Finset.mem_filter, Finset.mem_erase, Finset.mem_filter, slot_setFile _ _ _ _ h.nfiles, h.slot]
  by_cases hj : j = i
  · simp [hj]
  · simp [hj]

/-- As many descriptors can be opened as there are free ones within reach, at most. -/
theorem openAll_room (h : (openAll lim rp t).isSome) : rp.length ≤ room lim t := by
  induction rp generalizing t with
  | nil => exact Nat.zero_le _
  | cons fp l ih =>
    rw [openAll] at h
    rcases hf : fdalloc lim 0 t with ⟨t', _ | f⟩
    · rw [hf] at h
      cases h
    · simp only [hf, Option.isSome_map] at h
      have hgives : Gives lim t t' f := fdallocLoop_gives hf
      have hle := ih h
      rw [List.length_cons, ← hgives.room fp]
      omega

theorem availLoop_iff (l : List (Option FileId)) (n : ℤ) :
    availLoop l n = true ↔ n ≤ l.count none ∧ 0 < l.count none := by
  induction l generalizing n with
  | nil =>
    rw [availLoop]
    simp
  | cons fp l ih =>
    rw [availLoop]
    cases fp with
    | none =>
      rw [if_pos rfl, List.count_cons_self]
      split_ifs with hn
      · exact iff_of_true rfl ⟨by push_cast; omega, Nat.succ_pos _⟩
      · rw [ih]
        push_cast
        omega
    | some fp =>
      rw [if_neg (Option.some_ne_none fp), ih, List.count_cons_of_ne (Option.some_ne_none fp)]

/-- The free places of a list. -/
theorem card_free (l : List (Option FileId)) :
    ((Finset.range l.length).filter fun j => l[j]?.join = none).card = l.count none := by
  induction l using List.reverseRecOn with
  | nil => rfl
  | append_singleton l fp ih =>
    have hold : ((Finset.range l.length).filter fun j => (l ++ [fp])[j]?.join = none) =
        (Finset.range l.length).filter fun j => l[j]?.join = none := by
      apply Finset.filter_congr
      intro j hj
      rw [List.getElem?_append_left (Finset.mem_range.mp hj)]
    rw [List.length_append, List.length_singleton, Finset.range_add_one, Finset.filter_insert, hold,
      List.getElem?_concat_length, List.count_append, ← ih]
    cases fp with
    | none =>
      rw [if_pos (by rfl), Finset.card_insert_of_notMem (by simp)]
      rfl
    | some fp =>
      rw [if_neg (by exact Option.some_ne_none fp)]
      rfl

/-- Below the first descriptor that may be free there is none. -/
theorem count_drop (hg : Good t) :
    (t.fd_ofiles.drop t.fd_freefile.toNat).count none = t.fd_ofiles.count none := by
  have happ := congrArg (List.count none) (List.take_append_drop t.fd_freefile.toNat t.fd_ofiles)
  rw [List.count_append] at happ
  have hzero : (t.fd_ofiles.take t.fd_freefile.toNat).count none = 0 := by
    rw [List.count_eq_zero]
    intro hmem
    obtain ⟨j, hj⟩ := List.mem_iff_getElem?.mp hmem
    rw [List.getElem?_take] at hj
    split_ifs at hj with hlt
    exact hg.free j hlt ((slot_eq_none_iff t j).mpr (.inr hj))
  omega

/-- The free descriptors within reach are in the table, or behind it. -/
theorem room_le : room lim t ≤ t.fd_ofiles.count none + (reach lim t - t.fd_nfiles) := by
  rw [← card_free, room, ← Nat.card_Ico t.fd_nfiles (reach lim t)]
  refine le_trans (Finset.card_le_card ?_) (Finset.card_union_le _ _)
  intro j hj
  obtain ⟨hlt, hnone⟩ := Finset.mem_filter.mp hj
  rw [Finset.mem_range] at hlt
  obtain hin | hout := lt_or_ge j t.fd_nfiles
  · exact Finset.mem_union_left _ (Finset.mem_filter.mpr ⟨Finset.mem_range.mpr hin, hnone⟩)
  · exact Finset.mem_union_right _ (Finset.mem_Ico.mpr ⟨hout, hlt⟩)

theorem fdavail_iff (hg : Good t) (n : ℤ) : fdavail lim t n = true ↔
    (0 < (lim - BitVec.ofNat 32 t.fd_nfiles).toInt ∧
        n ≤ (lim - BitVec.ofNat 32 t.fd_nfiles).toInt + t.fd_ofiles.count none) ∧
          (n ≤ (lim - BitVec.ofNat 32 t.fd_nfiles).toInt ∨ 0 < t.fd_ofiles.count none) ∨
      (lim - BitVec.ofNat 32 t.fd_nfiles).toInt ≤ 0 ∧
        n ≤ t.fd_ofiles.count none ∧ 0 < t.fd_ofiles.count none := by
  rw [fdavail]
  generalize (lim - BitVec.ofNat 32 t.fd_nfiles).toInt = k
  split_ifs with h hk
  · exact iff_of_true rfl (.inl ⟨⟨h.1, by omega⟩, .inl (by omega)⟩)
  · rw [availLoop_iff, count_drop hg]
    omega
  · rw [availLoop_iff, count_drop hg]
    omega

/-- `fdavail` finds the descriptors that `fdalloc` will. -/
theorem openAll_avail (hg : Good t) (hsize : t.fd_nfiles < 2 ^ 31) (hne : rp ≠ [])
    (h : (openAll lim rp t).isSome) : fdavail lim t rp.length = true := by
  have hroom := openAll_room h
  have hle := @room_le lim t
  have hpos := List.length_pos_of_ne_nil hne
  have hcond := lim.toInt_eq_toNat_cond
  rw [fdavail_iff hg]
  rw [reach] at hle
  split_ifs at hle with hlim
  · omega
  · have hk : (lim - BitVec.ofNat 32 t.fd_nfiles).toInt = lim.toNat - t.fd_nfiles := by
      have hn : (BitVec.ofNat 32 t.fd_nfiles).toNat = t.fd_nfiles := by
        rw [BitVec.toNat_ofNat]
        exact Nat.mod_eq_of_lt (by omega)
      rw [BitVec.toInt_sub, hcond, BitVec.toInt_eq_toNat_cond (BitVec.ofNat 32 _), hn]
      rw [hcond] at hlim
      split_ifs at hlim ⊢ <;> rw [Int.bmod_eq_of_le] <;> omega
    split_ifs at hcond <;> omega

/-- Without enough descriptors the loop panics. -/
theorem externalizeLoop_none (h : openAll lim rp t = none) :
    externalizeLoop lim rp t R = .error (.panic "unp_externalize") := by
  induction rp generalizing t R with
  | nil => cases h
  | cons fp l ih =>
    rw [openAll] at h
    rw [externalizeLoop]
    rcases hf : fdalloc lim 0 t with ⟨t', _ | f⟩
    · rfl
    · simp only [hf, Option.map_eq_none_iff] at h
      dsimp only
      rw [ih h]
      rfl

theorem count_none_iff : (∀ j < t.fd_nfiles, t.slot j ≠ none) ↔ t.fd_ofiles.count none = 0 := by
  rw [← card_free, Finset.card_eq_zero, Finset.filter_eq_empty_iff]
  simp only [Finset.mem_range]
  rfl

/-- Where there are enough descriptors the files are disposed of. -/
theorem Externalizes.avail (h : Externalizes lim rp t R) : fdavail lim t rp.length = false := by
  rw [← Bool.not_eq_true]
  intro havail
  obtain ⟨r, hr, hinst⟩ := h.enough (h.predicts havail)
  rw [unpExternalize, if_pos havail] at hr
  cases hd : discardAll rp R with
  | error e =>
    rw [hd] at hr
    cases hr
  | ok R' =>
    rw [hd] at hr
    cases hr
    exact absurd hinst.success Bool.noConfusion

/-- Where there are too few the loop runs all the same. -/
theorem Externalizes.eq_nil (hg : Good t) (hsize : t.fd_nfiles < 2 ^ 31)
    (h : Externalizes lim rp t R) : rp = [] := by
  by_contra hne
  apply h.nopanic
  have hnone : openAll lim rp t = none := by
    rw [← Option.not_isSome_iff_eq_none]
    intro hsome
    exact absurd ((openAll_avail hg hsize hne hsome).symm.trans h.avail) Bool.noConfusion
  rw [unpExternalize, h.avail, externalizeLoop_none hnone]
  rfl

theorem externalizes_nil (havail : fdavail lim t 0 = false) : Externalizes lim [] t R := by
  have hrun : unpExternalize lim [] t R = .ok ⟨t, R, [], false⟩ := by
    rw [unpExternalize, List.length_nil, Nat.cast_zero, havail]
    rfl
  refine ⟨fun _ => ⟨_, hrun, rfl, ⟨[], rfl, List.nodup_nil, nofun, rfl, fun _ _ => rfl⟩, rfl⟩,
    fun hnone => ?_, ?_, ?_⟩
  · cases hnone
  · rw [hrun]
    intro h
    cases h
  · rw [List.length_nil, Nat.cast_zero, havail]
    intro h
    cases h

/-- The function does what it is for when there are no files in the message, no descriptor is left
in the table, and the limit does not let the table grow; else it does not. -/
theorem unpExternalize_iff (hg : Good t) (hsize : t.fd_nfiles < 2 ^ 31) :
    Externalizes lim rp t R ↔
      rp = [] ∧ (lim - BitVec.ofNat 32 t.fd_nfiles).toInt ≤ 0 ∧
        ∀ j < t.fd_nfiles, t.slot j ≠ none := by
  rw [count_none_iff]
  constructor
  · intro h
    obtain rfl := h.eq_nil hg hsize
    refine ⟨rfl, ?_⟩
    have hno := mt (fdavail_iff hg ([] : List FileId).length).mpr (by rw [h.avail]; decide)
    rw [List.length_nil] at hno
    omega
  · rintro ⟨rfl, hk, hcount⟩
    apply externalizes_nil
    rw [← Bool.not_eq_true, fdavail_iff hg]
    omega

/-- All descriptors of a process are in use, and its limit is the size of its table. -/
def fullTable : Filedesc := ⟨List.replicate 20 (some 0), List.replicate 20 0, 19, 20⟩

theorem fullTable_good : Good fullTable where
  flags := rfl
  free := by decide
  last := by
    intro j fp hj
    have hlt : j < 20 := lt_of_slot fullTable j hj
    change j ≤ 19
    omega
  bound := by decide
  size := .inl rfl

theorem unpExternalize_full :
    Externalizes 20 [] fullTable ⟨⟨fun _ => none, 0, 0, 8⟩, fun _ => 0, 0⟩ :=
  (unpExternalize_iff fullTable_good (by decide)).mpr ⟨rfl, by decide, by decide⟩

/-- A file in a message is disposed of although every descriptor is free. -/
theorem unpExternalize_discards :
    Good emptyTable ∧ ¬Externalizes 64 [0] emptyTable
      ⟨⟨Function.update (fun _ => none) 0 (some ⟨3, 2⟩), 1, 1, 8⟩, fun _ => 1, 1⟩ := by
  refine ⟨emptyTable_good, fun h => ?_⟩
  obtain ⟨r, hr, hinst⟩ := h.enough (by decide)
  have hdone : unpExternalize 64 [0] emptyTable
      ⟨⟨Function.update (fun _ => none) 0 (some ⟨3, 2⟩), 1, 1, 8⟩, fun _ => 1, 1⟩ =
        .ok ⟨emptyTable, _, [.null], true⟩ := rfl
  rw [hdone] at hr
  cases hr
  exact absurd hinst.success Bool.noConfusion

end Descrip
