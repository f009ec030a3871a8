import NetBsd.Kern.Sockbuf

/-!
# What socket buffer operations do to the records

A socket buffer that only its operations have changed holds its records as separate chains, and
its counts are those of the mbufs it holds.

## Main definitions

* `Rep sb rs`: the buffer holds the records `rs`, and its counts are right
* `Rec`: a record as the bytes appended to it and the number of bytes dropped from its front
* `Run sb gs`: calls of the operations lead to the buffer `sb`, with the record histories `gs`

## Main results

* `compressLoop_spec`: what `sbcompress` keeps of a packet
* `sbdrop_rep`, `flushLoop_rep`: dropping and flushing meet no panic
* `Rep.sbdrop_ok_iff`: when `sbdrop` panics
* `run_exact`: the counts, the links and the bytes after every run
-/

namespace Sockbuf

open Mbuf

variable {sb sb' : Sockbuf} {m : Mbuf} {l r k : List Mbuf} {rs : List (List Mbuf)}

/-! ## Totals -/

/-- The buffer with `c` more bytes and `b` more bytes of storage on its counts. -/
def charge (sb : Sockbuf) (c b : ℤ) : Sockbuf :=
  { sb with sbCc := sb.sbCc + c, sbMbcnt := sb.sbMbcnt + b }

theorem charge_charge (sb : Sockbuf) (c b c' b' : ℤ) :
    charge (charge sb c b) c' b' = charge sb (c + c') (b + b') := by
  simp only [charge, add_assoc]

theorem foldl_sballoc (sb : Sockbuf) (l : List Mbuf) :
    l.foldl sballoc sb = charge sb (lens l) (stores l) := by
  induction l generalizing sb with
  | nil => simp [charge]
  | cons m l ih =>
    rw [List.foldl_cons, ih]
    simp only [charge, sballoc, lens_cons, stores_cons, add_assoc]

/-! ## What is kept of a packet -/

/-- What `sbcompress` hands on from the mbuf `n` and the packet `l`: charges for the mbufs it
keeps, and every byte. -/
def Kept (sb : Sockbuf) (n l : List Mbuf) (r : Sockbuf × List Mbuf) : Prop :=
  r.1 = charge sb (lens r.2 - lens n) (stores r.2 - stores n) ∧
    bytes r.2 = bytes n ++ bytes l ∧ (n ≠ [] → r.2 ≠ [])

theorem compressLoop_kept (sb : Sockbuf) (eor : Bool) (n : Option Mbuf) (l : List Mbuf) :
    Kept sb n.toList l (compressLoop sb eor n l) := by
  induction l generalizing sb eor n with
  | nil =>
    cases n with
    | none => simp [compressLoop, Kept, charge]
    | some n => cases eor <;> simp [compressLoop, Kept, charge, Mbuf.len, Mbuf.storage]
  | cons m l ih =>
    simp only [compressLoop]
    split
    next hskip =>
      have hempty : m.data = [] := by
        simp only [skips, Bool.and_eq_true, Mbuf.len] at hskip
        simpa using hskip.1
      have := ih sb (eor || m.eor) n
      simpa [Kept, hempty] using this
    next hskip =>
      cases n with
      | none =>
        rcases ih (sballoc sb m) (eor || m.eor) (some { m with eor := false }) with ⟨hc, hb, hne⟩
        refine ⟨?_, by simpa using hb, by simp⟩
        dsimp only
        rw [hc]
        simp [charge, sballoc, Mbuf.len, Mbuf.storage, add_assoc]
      | some n =>
        dsimp only
        split
        next hmerge =>
          rcases ih { sb with sbCc := sb.sbCc + m.len } (eor || m.eor)
            (some { n with data := n.data ++ m.data }) with ⟨hc, hb, hne⟩
          refine ⟨?_, by simpa using hb, fun _ => hne (by simp)⟩
          rw [hc]
          simp [charge, Mbuf.len, Mbuf.storage]
          omega
        next hmerge =>
          rcases ih (sballoc sb m) (eor || m.eor) (some { m with eor := false }) with ⟨hc, hb, hne⟩
          refine ⟨?_, by simpa using hb, by simp⟩
          dsimp only
          rw [hc]
          simp [charge, sballoc, Mbuf.len, Mbuf.storage, add_assoc]

/-- An mbuf of the packet ends a record. -/
def marked (l : List Mbuf) : Bool := l.any Mbuf.eor

theorem compressLoop_ne_nil (sb : Sockbuf) (eor : Bool) (m : Mbuf) (l : List Mbuf) :
    (compressLoop sb eor (some m) l).2 ≠ [] :=
  (compressLoop_kept sb eor (some m) l).2.2 (by simp)

/-- In an empty buffer nothing is kept of a packet only when it has no bytes and ends no record. -/
theorem compressLoop_eq_nil (sb : Sockbuf) (eor : Bool) (l : List Mbuf)
    (he : eor = true → l ≠ []) :
    (compressLoop sb eor none l).2 = [] ↔ bytes l = [] ∧ (eor || marked l) = false := by
  induction l generalizing eor with
  | nil => cases eor <;> simp_all [compressLoop, marked]
  | cons m l ih =>
    simp only [compressLoop]
    split
    next hskip =>
      simp only [skips, Bool.and_eq_true, Mbuf.len] at hskip
      have hempty : m.data = [] := by simpa using hskip.1
      rw [ih]
      · simp [hempty, marked, Bool.or_assoc]
      · -- the end of record is left to a following mbuf
        rintro he' rfl
        simp [he'] at hskip
    next hskip =>
      simp only [compressLoop_ne_nil, false_iff, not_and, Bool.not_eq_false]
      intro hb
      have hempty : m.data = [] := (List.append_eq_nil_iff.mp hb).1
      by_cases he' : (eor || m.eor) = true
      · simp only [marked, List.any_cons, ← Bool.or_assoc, he', Bool.true_or]
      · simp [skips, Mbuf.len, hempty, he'] at hskip

/-! ## Chains as records -/

/-- The chain of the records. -/
def ofRecords : List (List Mbuf) → Chain
  | [] => .null
  | r :: rs => attach (ofRecords rs) r

/-- The buffer, not locked, holds the records `rs`, and its counts are theirs. -/
structure Rep (sb : Sockbuf) (rs : List (List Mbuf)) : Prop where
  mb : sb.sbMb = ofRecords rs
  ne : ∀ r ∈ rs, r ≠ []
  cc : sb.sbCc = lens rs.flatten
  mbcnt : sb.sbMbcnt = stores rs.flatten
  lock : sb.sbLock = false

theorem attach_null (l : List Mbuf) : attach .null l = .ofList l := by
  cases l <;> rfl

/-- A buffer with a record is not null. -/
theorem ofRecords_append (hne : ∀ r ∈ rs, r ≠ []) (hr : r ≠ []) :
    ∃ m next np, ofRecords (rs ++ [r]) = .mbuf m next np := by
  cases rs with
  | nil =>
    cases r with
    | nil => exact absurd rfl hr
    | cons m r => exact ⟨m, .ofList r, .null, rfl⟩
  | cons k rs =>
    rw [List.forall_mem_cons] at hne
    cases k with
    | nil => exact absurd rfl hne.1
    | cons m k => exact ⟨m, .ofList k, ofRecords (rs ++ [r]), rfl⟩

theorem linkLast_ofRecords (hne : ∀ r ∈ rs, r ≠ []) :
    linkLast (attach .null l) (ofRecords rs) = ofRecords (rs ++ [l]) := by
  induction rs with
  | nil => rfl
  | cons r rs ih =>
    rw [List.forall_mem_cons] at hne
    cases r with
    | nil => exact absurd rfl hne.1
    | cons m r =>
      rw [List.cons_append, ofRecords, attach, linkLast, ih hne.2]
      rfl

theorem hasEor_ofList (l : List Mbuf) : hasEor (.ofList l) = marked l := by
  induction l with
  | nil => rfl
  | cons m l ih => simp [Chain.ofList, hasEor, marked, ih, List.any_cons]

theorem hasEor_attach_null (l : List Mbuf) : hasEor (attach .null l) = marked l := by
  rw [attach_null, hasEor_ofList]

theorem lastRecord_ofRecords (hne : ∀ r ∈ rs, r ≠ []) (hr : r ≠ []) :
    lastRecord (ofRecords (rs ++ [r])) = attach .null r := by
  induction rs with
  | nil =>
    cases r with
    | nil => exact absurd rfl hr
    | cons m r => rfl
  | cons k rs ih =>
    rw [List.forall_mem_cons] at hne
    cases k with
    | nil => exact absurd rfl hne.1
    | cons m k =>
      rcases ofRecords_append hne.2 hr with ⟨m', next, np, hm⟩
      rw [List.cons_append, ofRecords, attach, hm, lastRecord, ← hm]
      exact ih hne.2

theorem onLast_ofRecords (hne : ∀ r ∈ rs, r ≠ []) (hr : r ≠ []) {f : Chain → Sockbuf × Chain}
    (hf : f (attach .null r) = (sb, attach .null k)) :
    onLast f (ofRecords (rs ++ [r])) = (sb, ofRecords (rs ++ [k])) := by
  induction rs with
  | nil =>
    cases r with
    | nil => exact absurd rfl hr
    | cons m r => exact hf
  | cons j rs ih =>
    rw [List.forall_mem_cons] at hne
    cases j with
    | nil => exact absurd rfl hne.1
    | cons m j =>
      rcases ofRecords_append hne.2 hr with ⟨m', next, np, hm⟩
      rw [List.cons_append, ofRecords, attach, hm, onLast, ← hm, ih hne.2]
      rfl

theorem sbcompress_attach (sb : Sockbuf) (l r : List Mbuf) (n : Mbuf) :
    sbcompress sb l (attach .null (r ++ [n])) = ((compressLoop sb false (some n) l).1,
      attach .null (r ++ (compressLoop sb false (some n) l).2)) := by
  induction r with
  | nil => rfl
  | cons m r ih =>
    cases r with
    | nil =>
      change (_, Chain.mbuf m (attach .null _) .null) = (_, Chain.mbuf m (.ofList _) .null)
      rw [attach_null]
      rfl
    | cons k r =>
      rw [attach_null, attach_null] at ih
      simp only [List.cons_append, attach, Chain.ofList, sbcompress] at ih ⊢
      rw [ih]

/-! ## Appending -/

theorem rep_charge (h : Rep sb (rs ++ [r])) (r' : List Mbuf) (hr' : r' ≠ []) {t : Chain}
    (ht : t = ofRecords (rs ++ [r'])) :
    Rep { charge sb (lens r' - lens r) (stores r' - stores r) with sbMb := t } (rs ++ [r']) := by
  have hcc := h.cc
  have hmb := h.mbcnt
  simp only [List.flatten_append, List.flatten_cons, List.flatten_nil, List.append_nil,
    lens_append, stores_append] at hcc hmb
  refine ⟨ht, ?_, ?_, ?_, h.lock⟩
  · intro k hk
    rcases List.mem_append.mp hk with hk | hk
    · exact h.ne k (List.mem_append_left _ hk)
    · rw [List.mem_singleton.mp hk]
      exact hr'
  · simp [charge]
    omega
  · simp [charge]
    omega

/-- A new record at place `i`. -/
theorem rep_insert (h : Rep sb rs) (hl : l ≠ []) {t : Chain} {i : ℕ} (hi : i ≤ rs.length)
    (ht : t = ofRecords (rs.insertIdx i l)) :
    Rep { charge sb (lens l) (stores l) with sbMb := t } (rs.insertIdx i l) := by
  have hperm := List.perm_insertIdx l rs hi
  have hlens : lens (rs.insertIdx i l).flatten = lens l + lens rs.flatten := by
    rw [lens, (hperm.flatten.map Mbuf.len).sum_eq]
    exact lens_append
  have hstores : stores (rs.insertIdx i l).flatten = stores l + stores rs.flatten := by
    rw [stores, (hperm.flatten.map Mbuf.storage).sum_eq]
    exact stores_append
  refine ⟨ht, ?_, ?_, ?_, h.lock⟩
  · intro k hk
    rcases List.mem_cons.mp (hperm.mem_iff.mp hk) with rfl | hk
    · exact hl
    · exact h.ne k hk
  · rw [hlens, ← h.cc]
    simp [charge]
    omega
  · rw [hstores, ← h.mbcnt]
    simp [charge]
    omega

/-- The mbufs of a new record: what `passEor` and `sbcompress` make of a packet. -/
theorem newRecord_kept (sb : Sockbuf) (m : Mbuf) (l : List Mbuf) {r : Sockbuf × List Mbuf}
    (hr : compressLoop (sballoc sb m) false (some (passEor m l).1) (passEor m l).2 = r) :
    r.1 = charge sb (lens r.2) (stores r.2) ∧ bytes r.2 = bytes (m :: l) ∧ r.2 ≠ [] := by
  have hpass : (passEor m l).1.len = m.len ∧ (passEor m l).1.storage = m.storage ∧
      (passEor m l).1.data ++ bytes (passEor m l).2 = bytes (m :: l) := by
    cases l with
    | nil => exact ⟨rfl, rfl, rfl⟩
    | cons k l =>
      by_cases he : m.eor = true
      · simp [passEor, he, Mbuf.len, Mbuf.storage]
      · simp [passEor, he]
  rcases compressLoop_kept (sballoc sb m) false (some (passEor m l).1) (passEor m l).2 with
    ⟨hc, hb, hne⟩
  rw [hr] at hc hb hne
  refine ⟨?_, by simpa [hpass.2.2] using hb, hne (by simp)⟩
  rw [hc]
  simp [charge, sballoc, hpass.1, hpass.2.1]

theorem sbappendrecord_rep (h : Rep sb rs) (hl : l ≠ []) :
    ∃ r, bytes r = bytes l ∧ Rep (sbappendrecord sb l) (rs ++ [r]) := by
  cases l with
  | nil => exact absurd rfl hl
  | cons m l =>
    rcases newRecord_kept sb m l rfl with ⟨hc, hb, hne⟩
    refine ⟨_, hb, ?_⟩
    rw [← List.insertIdx_length_self, sbappendrecord, hc]
    apply rep_insert h hne (Nat.le_refl _)
    rw [h.mb, linkLast_ofRecords h.ne, List.insertIdx_length_self]

/-- The record is out-of-band data, behind its control mbufs. -/
def oob : List Mbuf → Bool
  | [] => false
  | m :: l =>
    match m.mType with
    | .oobdata => true
    | .control => oob l
    | _ => false

/-- The number of out-of-band records in front. -/
def oobIdx (rs : List (List Mbuf)) : ℕ := (rs.takeWhile oob).length

theorem isOob_ofList (l : List Mbuf) : isOob (.ofList l) = oob l := by
  induction l with
  | nil => rfl
  | cons m l ih =>
    cases h : m.mType <;> simp [Chain.ofList, isOob, oob, h, ih]

theorem linkOob_ofRecords (hne : ∀ r ∈ rs, r ≠ []) :
    linkOob l (ofRecords rs) = ofRecords (rs.insertIdx (oobIdx rs) l) := by
  induction rs with
  | nil => rfl
  | cons r rs ih =>
    rw [List.forall_mem_cons] at hne
    cases r with
    | nil => exact absurd rfl hne.1
    | cons m r =>
      have hoob : isOob (.mbuf m (.ofList r) (ofRecords rs)) = oob (m :: r) := by
        cases h : m.mType <;> simp [isOob, oob, h, isOob_ofList]
      rw [ofRecords, attach, linkOob, hoob, ih hne.2]
      unfold oobIdx
      rw [List.takeWhile_cons]
      split <;> rfl

theorem sbinsertoob_rep (h : Rep sb rs) (hl : l ≠ []) :
    ∃ r, bytes r = bytes l ∧ Rep (sbinsertoob sb l) (rs.insertIdx (oobIdx rs) r) := by
  cases l with
  | nil => exact absurd rfl hl
  | cons m l =>
    rcases newRecord_kept sb m l rfl with ⟨hc, hb, hne⟩
    refine ⟨_, hb, ?_⟩
    rw [sbinsertoob, hc]
    apply rep_insert h hne (List.takeWhile_prefix _).length_le
    rw [h.mb, linkOob_ofRecords h.ne]
    rfl

theorem appendAll_rep (h : Rep sb rs) (hl : l ≠ []) :
    Rep { l.foldl sballoc sb with sbMb := linkLast (.ofList l) sb.sbMb } (rs ++ [l]) := by
  rw [foldl_sballoc, ← List.insertIdx_length_self]
  apply rep_insert h hl (Nat.le_refl _)
  rw [h.mb, ← attach_null, linkLast_ofRecords h.ne, List.insertIdx_length_self]

/-- `sbappendaddr` leaves the buffer alone or appends all the mbufs as they are. -/
theorem sbappendaddr_ok {asa : List UInt8} {m0 control : List Mbuf} {got b : Bool}
    (hok : sbappendaddr sb asa m0 control got = .ok (b, sb')) :
    (b = false ∧ sb' = sb) ∨ (b = true ∧ sb' =
      { (⟨.soname, none, none, false, 0, asa⟩ :: (control ++ m0)).foldl sballoc sb with
        sbMb := linkLast (.ofList (⟨.soname, none, none, false, 0, asa⟩ :: (control ++ m0)))
          sb.sbMb }) := by
  unfold sbappendaddr at hok
  split at hok
  · cases hok
  · dsimp only at hok
    split at hok
    · cases hok
      exact Or.inl ⟨rfl, rfl⟩
    · split at hok
      · cases hok
        exact Or.inl ⟨rfl, rfl⟩
      · split at hok
        · cases hok
          exact Or.inl ⟨rfl, rfl⟩
        · cases hok
          exact Or.inr ⟨rfl, rfl⟩

theorem sbappendcontrol_ok {m0 control : List Mbuf} {b : Bool}
    (hok : sbappendcontrol sb m0 control = .ok (b, sb')) :
    (b = false ∧ sb' = sb) ∨ (control ≠ [] ∧ b = true ∧ sb' =
      { (control ++ m0).foldl sballoc sb with
        sbMb := linkLast (.ofList (control ++ m0)) sb.sbMb }) := by
  unfold sbappendcontrol at hok
  split at hok
  · cases hok
  next hne =>
    dsimp only at hok
    split at hok
    · cases hok
      exact Or.inl ⟨rfl, rfl⟩
    · cases hok
      exact Or.inr ⟨hne, rfl, rfl⟩

/-- `sbappend` to an empty buffer: a record, unless nothing of the packet is kept. -/
theorem sbappend_rep_nil (h : Rep sb []) (hl : l ≠ []) :
    ∃ r, bytes r = bytes l ∧ (r = [] ↔ bytes l = [] ∧ marked l = false) ∧
      Rep (sbappend sb l) (if r = [] then [] else [r]) := by
  have hnull : sb.sbMb = .null := h.mb
  have hcc : sb.sbCc = 0 := h.cc
  have hmb : sb.sbMbcnt = 0 := h.mbcnt
  rcases compressLoop_kept sb false none l with ⟨hc, hb, -⟩
  refine ⟨(compressLoop sb false none l).2, by simpa using hb, ?_, ?_⟩
  · simpa using compressLoop_eq_nil sb false l (by simp)
  · have hcall : onLast (sbcompress sb l) .null = ((compressLoop sb false none l).1,
        attach .null (compressLoop sb false none l).2) := rfl
    rw [sbappend, if_neg hl, hnull, show hasEor (lastRecord .null) = false from rfl,
      if_neg (by simp), hcall, hc]
    split
    next hr =>
      exact ⟨by rw [hr]; rfl, by simp, by simp [charge, hr, hcc], by simp [charge, hr, hmb], h.lock⟩
    next hr =>
      exact ⟨rfl, by simpa using hr, by simp [charge, hcc], by simp [charge, hmb], h.lock⟩

/-- The first mbuf is still there, with what it held. -/
def Grown (r r' : List Mbuf) : Prop :=
  ∀ m t, r = m :: t → ∃ m' t', r' = m' :: t' ∧ m.data.length ≤ m'.data.length

theorem compressLoop_grown (sb : Sockbuf) (eor : Bool) (n : Mbuf) (l : List Mbuf) :
    ∃ n' t, (compressLoop sb eor (some n) l).2 = n' :: t ∧ n.data.length ≤ n'.data.length := by
  induction l generalizing sb eor n with
  | nil => exact ⟨_, [], rfl, by split <;> exact Nat.le_refl _⟩
  | cons m l ih =>
    simp only [compressLoop]
    split
    · exact ih _ _ _
    · split
      · obtain ⟨n', t, heq, hle⟩ := ih { sb with sbCc := sb.sbCc + m.len } (eor || m.eor)
          { n with data := n.data ++ m.data }
        refine ⟨n', t, heq, ?_⟩
        rw [List.length_append] at hle
        omega
      · exact ⟨n, _, rfl, Nat.le_refl _⟩

/-- `sbappend` to a buffer whose last record has not ended. -/
theorem sbappend_rep_last (h : Rep sb (rs ++ [r])) (hr : marked r = false) (hl : l ≠ []) :
    ∃ r', bytes r' = bytes r ++ bytes l ∧ Rep (sbappend sb l) (rs ++ [r']) ∧ Grown r r' := by
  have hne : ∀ k ∈ rs, k ≠ [] := fun k hk => h.ne k (List.mem_append_left _ hk)
  have hrne : r ≠ [] := h.ne r (by simp)
  rcases List.eq_nil_or_concat r with rfl | ⟨k, n, rfl⟩
  · exact absurd rfl hrne
  · rw [List.concat_eq_append] at h hr hrne
    rcases compressLoop_kept sb false (some n) l with ⟨hc, hb, hkept⟩
    have hlast := onLast_ofRecords hne hrne (sbcompress_attach sb l k n)
    refine ⟨k ++ (compressLoop sb false (some n) l).2, by simpa using hb, ?_⟩
    rw [sbappend, if_neg hl, h.mb, lastRecord_ofRecords hne hrne, hasEor_attach_null, hr,
      if_neg (by simp), hlast, hc]
    have hcharge := rep_charge h (k ++ (compressLoop sb false (some n) l).2)
      (by simpa using fun _ => hkept (by simp)) rfl
    refine ⟨by simpa using hcharge, ?_⟩
    intro m t hmt
    cases k with
    | nil =>
      obtain ⟨n', t', heq, hle⟩ := compressLoop_grown sb false n l
      obtain ⟨rfl, -⟩ := List.cons.inj hmt
      exact ⟨n', t', heq, hle⟩
    | cons j k =>
      obtain ⟨rfl, -⟩ := List.cons.inj hmt
      exact ⟨j, _, rfl, Nat.le_refl _⟩

/-- `sbappend` to a buffer whose last record has ended begins a new one. -/
theorem sbappend_rep_ended (h : Rep sb (rs ++ [r])) (hr : marked r = true) (hl : l ≠ []) :
    ∃ r', bytes r' = bytes l ∧ Rep (sbappend sb l) (rs ++ [r] ++ [r']) := by
  have hne : ∀ k ∈ rs, k ≠ [] := fun k hk => h.ne k (List.mem_append_left _ hk)
  have hrne : r ≠ [] := h.ne r (by simp)
  rw [sbappend, if_neg hl, h.mb, lastRecord_ofRecords hne hrne, hasEor_attach_null, hr, if_pos rfl]
  exact sbappendrecord_rep h hl

/-! ## Dropping -/

/-- Dropping the first `n` bytes of the records: those that have run out are gone. -/
def dropBytes (n : ℕ) : List (List UInt8) → List (List UInt8)
  | [] => []
  | b :: bs =>
    if n < b.length then b.drop n :: bs
    else if n = b.length then bs
    else dropBytes (n - b.length) bs

theorem length_dropBytes_le (n : ℕ) (bs : List (List UInt8)) :
    (dropBytes n bs).length ≤ bs.length := by
  induction bs generalizing n with
  | nil => rfl
  | cons b bs ih =>
    have := ih (n - b.length)
    unfold dropBytes
    split
    · simp
    · split <;> simp only [List.length_cons] <;> omega

/-- A turn of the loop of `sbflush` takes the first record away at least. -/
theorem length_dropBytes_lt {n : ℕ} {b : List UInt8} (bs : List (List UInt8)) (hn : b.length ≤ n) :
    (dropBytes n (b :: bs)).length < (b :: bs).length := by
  have := length_dropBytes_le (n - b.length) bs
  rw [dropBytes, if_neg (by omega)]
  split <;> simp only [List.length_cons] <;> omega

/-- What the loop of `sbdrop` leaves of the record `r`: a chain without the first `len` bytes, or
the number of bytes that the record was short of. -/
def Dropped (sb : Sockbuf) (len : ℤ) (r : List Mbuf) : Sockbuf × (ℤ ⊕ Chain) → Prop
  | (s, .inl d) => d = len - lens r ∧ 0 ≤ d ∧ s = charge sb (-lens r) (-stores r)
  | (s, .inr t) => ∃ k np, k ≠ [] ∧ t = attach np k ∧ len ≤ lens r ∧
      bytes k = (bytes r).drop len.toNat ∧ s = charge sb (lens k - lens r) (stores k - stores r)

theorem dropped_stop (sb : Sockbuf) (m : Mbuf) (r : List Mbuf) (np : Chain) :
    Dropped sb 0 (m :: r) (sb, .inr (attach np (m :: r))) := by
  refine ⟨m :: r, np, by simp, rfl, ?_, by simp, by simp [charge]⟩
  rw [lens_eq]
  omega

theorem dropped_cut {len : ℤ} (h0 : 0 < len) (hlt : len < m.len) (r : List Mbuf) (np : Chain) :
    Dropped sb len (m :: r) ({ sb with sbCc := sb.sbCc - len }, .inr (attach np
      ({ m with off := m.off + len.toNat, data := m.data.drop len.toNat } :: r))) := by
  refine ⟨_, np, by simp, rfl, ?_, ?_, ?_⟩
  · rw [lens_cons, lens_eq]
    omega
  · rw [bytes_cons, bytes_cons, List.drop_append_of_le_length]
    simp only [Mbuf.len] at hlt
    omega
  · simp only [charge, lens_cons, stores_cons, Mbuf.len, Mbuf.storage, List.length_drop] at hlt ⊢
    congr 1 <;> omega

theorem Dropped.cons {len : ℤ} (hge : m.len ≤ len) {res : Sockbuf × (ℤ ⊕ Chain)}
    (h : Dropped (sbfree sb m) (len - m.len) r res) : Dropped sb len (m :: r) res := by
  rcases res with ⟨s, d | t⟩
  · rcases h with ⟨hd, h0, hs⟩
    refine ⟨by rw [hd, lens_cons]; omega, h0, ?_⟩
    rw [hs]
    simp only [charge, sbfree, lens_cons, stores_cons]
    congr 1 <;> omega
  · rcases h with ⟨k, np, hk, ht, hlen, hb, hs⟩
    refine ⟨k, np, hk, ht, by rw [lens_cons]; omega, ?_, ?_⟩
    · simp only [Mbuf.len] at hge hb
      have hcut : m.data.drop len.toNat = [] := List.drop_eq_nil_of_le (by omega)
      rw [hb, bytes_cons, List.drop_append, hcut, List.nil_append]
      congr 1
      omega
    · rw [hs]
      simp only [charge, sbfree, lens_cons, stores_cons]
      congr 1 <;> omega

theorem dropChain_spec {len : ℤ} (h0 : 0 ≤ len) (m : Mbuf) (r : List Mbuf) (np : Chain) :
    Dropped sb len (m :: r) (dropChain sb len (attach np (m :: r))) := by
  induction r generalizing sb len m np with
  | nil =>
    simp only [attach, dropChain]
    split
    next hle =>
      rw [show len = 0 by omega]
      exact dropped_stop sb m [] np
    next hpos =>
      split
      next hlt => exact dropped_cut (by omega) hlt [] np
      next hge =>
        apply Dropped.cons (by omega)
        exact ⟨by simp, by omega, by simp [charge]⟩
  | cons k r ih =>
    simp only [attach, dropChain]
    split
    next hle =>
      rw [show len = 0 by omega]
      exact dropped_stop sb m (k :: r) np
    next hpos =>
      split
      next hlt => exact dropped_cut (by omega) hlt (k :: r) np
      next hge =>
        apply Dropped.cons (by omega)
        rw [← attach_null]
        exact ih (by omega) k .null

/-- Freeing the empty mbufs in front of a record, which may free all of it. -/
theorem freeEmpty_spec (sb : Sockbuf) (np np' : Chain) (k : List Mbuf) (hk : k ≠ []) :
    ∃ k', relink np (freeEmpty sb (attach np' k)).2 = attach np k' ∧ bytes k' = bytes k ∧
      (bytes k = [] → k' = []) ∧
      (freeEmpty sb (attach np' k)).1 = charge sb (lens k' - lens k) (stores k' - stores k) := by
  induction k generalizing sb np' with
  | nil => exact absurd rfl hk
  | cons m k ih =>
    simp only [attach, freeEmpty]
    split
    next hempty =>
      have hm : m.data = [] := by simpa [Mbuf.len] using hempty
      cases k with
      | nil =>
        refine ⟨[], rfl, by simp [hm], fun _ => rfl, ?_⟩
        simp [charge, freeEmpty, sbfree, Chain.ofList, sub_eq_add_neg]
      | cons j k =>
        rcases ih (sbfree sb m) .null (by simp) with ⟨k', hrel, hb, hnil, hc⟩
        rw [attach_null] at hrel hc
        refine ⟨k', hrel, by simpa [hm] using hb, fun hk' => hnil (by simpa [hm] using hk'), ?_⟩
        rw [hc]
        simp only [charge, sbfree, lens_cons, stores_cons]
        congr 1 <;> omega
    next hfull =>
      refine ⟨m :: k, rfl, rfl, fun hb => ?_, by simp [charge]⟩
      simp only [bytes_cons, List.append_eq_nil_iff] at hb
      simp [Mbuf.len, hb.1] at hfull

/-- The buffer after the mbufs `l` have become the records `rs'`. -/
theorem rep_left {t : Chain} {c b : ℤ} {rs' : List (List Mbuf)}
    (h : Rep { sb with sbMb := t } rs) (hne : ∀ k ∈ rs', k ≠ [])
    (hc : c = lens rs'.flatten - lens rs.flatten)
    (hb : b = stores rs'.flatten - stores rs.flatten) :
    Rep { charge sb c b with sbMb := ofRecords rs' } rs' := by
  have hcc : sb.sbCc = lens rs.flatten := h.cc
  have hmb : sb.sbMbcnt = stores rs.flatten := h.mbcnt
  refine ⟨rfl, hne, ?_, ?_, h.lock⟩ <;> simp only [charge] <;> omega

theorem dropFrom_attach (sb : Sockbuf) (len : ℤ) (m : Mbuf) (r : List Mbuf) (np : Chain) :
    dropFrom sb len (attach np (m :: r)) =
      match dropChain sb len (attach np (m :: r)) with
      | (s, .inr t) => .ok { (freeEmpty s t).1 with sbMb := relink np (freeEmpty s t).2 }
      | (s, .inl d) => if d > 0 then dropFrom s d np else .ok { s with sbMb := np } := rfl

theorem dropFrom_rep (h : Rep { sb with sbMb := ofRecords rs } rs) {len : ℕ}
    (hlen : (len : ℤ) ≤ sb.sbCc) :
    ∃ sb' rs', dropFrom sb len (ofRecords rs) = .ok sb' ∧ Rep sb' rs' ∧
      rs'.map bytes = dropBytes len (rs.map bytes) := by
  induction rs generalizing sb len with
  | nil =>
    have hcc : sb.sbCc = 0 := h.cc
    exact ⟨_, [], if_neg (show ¬(len : ℤ) > 0 by omega), h, rfl⟩
  | cons r rs ih =>
    have hcc : sb.sbCc = lens r + lens rs.flatten := by
      simpa using h.cc
    rcases List.forall_mem_cons.mp h.ne with ⟨hr, hne⟩
    cases r with
    | nil => exact absurd rfl hr
    | cons m r =>
      have hdrop : Dropped sb len (m :: r) (dropChain sb len (attach (ofRecords rs) (m :: r))) :=
        dropChain_spec (Int.natCast_nonneg len) m r (ofRecords rs)
      have hlr := lens_eq (m :: r)
      rw [ofRecords, List.map_cons, dropBytes]
      rcases hres : dropChain sb len (attach (ofRecords rs) (m :: r)) with ⟨s, d | t⟩
      · rw [hres] at hdrop
        rcases hdrop with ⟨hd, h0, hs⟩
        rw [dropFrom_attach, hres]
        dsimp only
        have hrep : Rep { s with sbMb := ofRecords rs } rs := by
          rw [hs]
          exact rep_left h hne (by simp; omega) (by simp; omega)
        by_cases hpos : d > 0
        · rw [if_pos hpos, if_neg (by omega), if_neg (by omega)]
          have hd' : d = ((len - (bytes (m :: r)).length : ℕ) : ℤ) := by omega
          rw [hd']
          apply ih hrep
          rw [hs]
          simp only [charge]
          omega
        · rw [if_neg hpos, if_neg (by omega), if_pos (by omega)]
          exact ⟨_, rs, rfl, hrep, rfl⟩
      · rw [hres] at hdrop
        rcases hdrop with ⟨k, np, hk, rfl, hle, hb, hs⟩
        rcases freeEmpty_spec s (ofRecords rs) np k hk with ⟨k', hrel, hbk, hnil, hc⟩
        rw [dropFrom_attach, hres]
        dsimp only
        rw [hrel, hc, hs]
        have hbytes : bytes k' = (bytes (m :: r)).drop len := hbk.trans hb
        rw [charge_charge]
        by_cases hk' : k' = []
        · -- the rest of the record had no bytes
          subst hk'
          have hall : (bytes (m :: r)).length ≤ len := by
            have hzero := congrArg List.length hbytes
            rw [List.length_drop, bytes_nil, List.length_nil] at hzero
            omega
          rw [if_neg (by omega), if_pos (by omega)]
          refine ⟨_, rs, rfl, rep_left h hne ?_ ?_, rfl⟩
          · simp only [lens_nil, List.flatten_cons, lens_append]
            omega
          · simp only [stores_nil, List.flatten_cons, stores_append]
            omega
        · have hpart : len < (bytes (m :: r)).length := by
            by_contra hall
            apply hk' (hnil _)
            rw [hb, List.drop_eq_nil_of_le (by omega)]
          rw [if_pos hpart]
          refine ⟨_, k' :: rs, rfl, ?_, by rw [List.map_cons, hbytes]⟩
          change Rep { charge sb _ _ with sbMb := ofRecords (k' :: rs) } _
          apply rep_left h
          · exact List.forall_mem_cons.mpr ⟨hk', hne⟩
          · simp only [List.flatten_cons, lens_append]
            omega
          · simp only [List.flatten_cons, stores_append]
            omega

theorem sbdrop_rep (h : Rep sb rs) {len : ℕ} (hlen : (len : ℤ) ≤ sb.sbCc) :
    ∃ sb' rs', sbdrop sb len = .ok sb' ∧ Rep sb' rs' ∧
      rs'.map bytes = dropBytes len (rs.map bytes) := by
  rw [sbdrop, h.mb]
  apply dropFrom_rep _ hlen
  rw [← h.mb]
  exact h

/-- Dropping more bytes than there are runs off the end. -/
theorem dropFrom_panics (h : Rep { sb with sbMb := ofRecords rs } rs) {len : ℕ}
    (hlen : sb.sbCc < len) : dropFrom sb len (ofRecords rs) = .error .panic := by
  induction rs generalizing sb len with
  | nil =>
    have hcc : sb.sbCc = 0 := h.cc
    exact if_pos (show (len : ℤ) > 0 by omega)
  | cons r rs ih =>
    have hcc : sb.sbCc = lens r + lens rs.flatten := by
      simpa using h.cc
    have hrest := lens_eq rs.flatten
    rcases List.forall_mem_cons.mp h.ne with ⟨hr, hne⟩
    cases r with
    | nil => exact absurd rfl hr
    | cons m r =>
      have hdrop : Dropped sb len (m :: r) (dropChain sb len (attach (ofRecords rs) (m :: r))) :=
        dropChain_spec (Int.natCast_nonneg len) m r (ofRecords rs)
      rw [ofRecords, dropFrom_attach]
      rcases hres : dropChain sb len (attach (ofRecords rs) (m :: r)) with ⟨s, d | t⟩
      · rw [hres] at hdrop
        rcases hdrop with ⟨hd, h0, hs⟩
        have hrep : Rep { s with sbMb := ofRecords rs } rs := by
          rw [hs]
          exact rep_left h hne (by simp; omega) (by simp; omega)
        dsimp only
        rw [if_pos (by omega), show d = (d.toNat : ℤ) by omega]
        apply ih hrep
        rw [hs]
        simp only [charge]
        omega
      · rw [hres] at hdrop
        rcases hdrop with ⟨k, np, -, -, hle, -⟩
        omega

/-- `sbdrop` panics exactly when it is asked for more bytes than there are. -/
theorem Rep.sbdrop_ok_iff (h : Rep sb rs) (len : ℕ) :
    (∃ sb', sbdrop sb len = .ok sb') ↔ (len : ℤ) ≤ sb.sbCc := by
  constructor
  · rintro ⟨sb', hok⟩
    by_contra hlt
    rw [sbdrop, h.mb, dropFrom_panics (by rw [← h.mb]; exact h) (by omega)] at hok
    cases hok
  · intro hle
    rcases sbdrop_rep h hle with ⟨sb', -, hok, -⟩
    exact ⟨sb', hok⟩

theorem bytes_flatten (rs : List (List Mbuf)) : bytes rs.flatten = (rs.map bytes).flatten := by
  induction rs with
  | nil => rfl
  | cons r rs ih => simp [ih]

theorem freeChain_ofList (sb : Sockbuf) (l : List Mbuf) :
    freeChain sb (.ofList l) = charge sb (-lens l) (-stores l) := by
  induction l generalizing sb with
  | nil => simp [charge, freeChain, Chain.ofList]
  | cons m l ih =>
    rw [Chain.ofList, freeChain, ih]
    simp only [charge, sbfree, lens_cons, stores_cons]
    congr 1 <;> omega

/-- `sbdroprecord` takes the first record away. -/
theorem sbdroprecord_rep (h : Rep sb rs) : Rep (sbdroprecord sb) rs.tail := by
  cases rs with
  | nil =>
    have hnull : sb.sbMb = .null := h.mb
    rw [sbdroprecord, hnull]
    exact h
  | cons r rs =>
    rcases List.forall_mem_cons.mp h.ne with ⟨hr, hne⟩
    cases r with
    | nil => exact absurd rfl hr
    | cons m r =>
      have hmb : sb.sbMb = .mbuf m (.ofList r) (ofRecords rs) := h.mb
      have hrep : Rep { sb with sbMb := sb.sbMb } ((m :: r) :: rs) := h
      have hfree : freeChain sb (.mbuf m (.ofList r) (ofRecords rs)) =
          charge sb (-lens (m :: r)) (-stores (m :: r)) := freeChain_ofList sb (m :: r)
      rw [sbdroprecord, hmb]
      dsimp only
      rw [hfree]
      apply rep_left hrep hne
      · simp only [List.flatten_cons, lens_append]
        omega
      · simp only [List.flatten_cons, stores_append]
        omega

/-! ## Flushing -/

theorem Rep.eq_nil (h : Rep sb rs) (hmb : sb.sbMbcnt = 0) : rs = [] := by
  have hflat := stores_eq_zero (h.mbcnt.symm.trans hmb)
  cases rs with
  | nil => rfl
  | cons r rs =>
    exact absurd (List.append_eq_nil_iff.mp hflat).1 (h.ne r List.mem_cons_self)

/-- A turn of the loop of `sbflush` drops all bytes. -/
theorem Rep.sbdrop_all (h : Rep sb rs) :
    ∃ sb' rs', sbdrop sb sb.sbCc = .ok sb' ∧ Rep sb' rs' ∧
      rs'.map bytes = dropBytes (bytes rs.flatten).length (rs.map bytes) := by
  have hcc : sb.sbCc = ((bytes rs.flatten).length : ℕ) := by rw [h.cc, lens_eq]
  rw [hcc]
  exact sbdrop_rep h hcc.ge

theorem flushLoop_rep {k : ℕ} (h : Rep sb rs) (hk : rs.length ≤ k) :
    ∃ sb', flushLoop k sb = .ok sb' ∧ Rep sb' [] := by
  induction k generalizing sb rs with
  | zero =>
    have hnil : rs = [] := List.length_eq_zero_iff.mp (by omega)
    subst hnil
    have hmb : sb.sbMbcnt = 0 := h.mbcnt
    exact ⟨sb, if_pos hmb, h⟩
  | succ k ih =>
    by_cases hmb : sb.sbMbcnt = 0
    · rw [h.eq_nil hmb] at h
      exact ⟨sb, if_pos hmb, h⟩
    · rcases rs with _ | ⟨r, rs⟩
      · exact absurd h.mbcnt hmb
      · rcases h.sbdrop_all with ⟨sb₁, rs₁, hok, h₁, hb₁⟩
        have hlt : rs₁.length < (r :: rs).length := by
          have hle : (bytes r).length ≤ (bytes (r :: rs).flatten).length := by simp
          have := length_dropBytes_lt (rs.map bytes) hle
          rw [← List.map_cons, ← hb₁, List.length_map, List.length_map] at this
          exact this
        rcases ih h₁ (by simp only [List.length_cons] at hlt hk; omega) with ⟨sb', hsb', h'⟩
        refine ⟨sb', ?_, h'⟩
        rw [flushLoop, if_neg hmb, hok]
        exact hsb'

theorem flushLoop_ok {k : ℕ} (h : Rep sb rs) (hok : flushLoop k sb = .ok sb') : Rep sb' [] := by
  induction k generalizing sb rs with
  | zero =>
    rw [flushLoop] at hok
    split at hok
    next hmb =>
      cases hok
      exact h.eq_nil hmb ▸ h
    next => cases hok
  | succ k ih =>
    rw [flushLoop] at hok
    split at hok
    next hmb =>
      cases hok
      exact h.eq_nil hmb ▸ h
    next =>
      rcases h.sbdrop_all with ⟨sb₁, rs₁, hdrop, h₁, -⟩
      rw [hdrop] at hok
      exact ih h₁ hok

/-- `sbflush` ends with an empty buffer, and meets none of its panics. -/
theorem sbflush_rep {k : ℕ} (h : Rep sb rs) (hk : rs.length ≤ k) :
    ∃ sb', sbflush k sb = .ok sb' ∧ Rep sb' [] := by
  rcases flushLoop_rep h hk with ⟨sb', hok, h'⟩
  have hmb : sb'.sbMb = .null := h'.mb
  have hcc : sb'.sbCc = 0 := h'.cc
  refine ⟨sb', ?_, h'⟩
  rw [sbflush, if_neg (by simp [h.lock]), hok]
  simp [bind, Except.bind, hmb, hcc]

theorem sbflush_ok {k : ℕ} (h : Rep sb rs) (hok : sbflush k sb = .ok sb') : Rep sb' [] := by
  rw [sbflush, if_neg (by simp [h.lock])] at hok
  rcases Fault.bind_eq_ok.mp hok with ⟨sb₁, hloop, hend⟩
  split at hend
  · cases hend
  · cases hend
    exact flushLoop_ok h hloop

/-! ## What is reached from a buffer -/

/-- The mbufs that `m_next` leads to. -/
def Chain.train : Chain → List Mbuf
  | .null => []
  | .mbuf m next _ => m :: next.train

/-- The records that `m_nextpkt` leads to. -/
def Chain.records : Chain → List (List Mbuf)
  | .null => []
  | .mbuf m next nextpkt => (m :: next.train) :: nextpkt.records

/-- The mbufs that any links lead to. -/
def Chain.all : Chain → List Mbuf
  | .null => []
  | .mbuf m next nextpkt => m :: (next.all ++ nextpkt.all)

/-- No mbuf of the train has a record link. -/
def Chain.Unlinked : Chain → Prop
  | .null => True
  | .mbuf _ next nextpkt => nextpkt = .null ∧ next.Unlinked

/-- Only the first mbuf of a record has a record link. -/
def Chain.Linked : Chain → Prop
  | .null => True
  | .mbuf _ next nextpkt => next.Unlinked ∧ nextpkt.Linked

theorem ofList_train (l : List Mbuf) : (Chain.ofList l).train = l := by
  induction l with
  | nil => rfl
  | cons m l ih => rw [Chain.ofList, Chain.train, ih]

theorem ofList_all (l : List Mbuf) : (Chain.ofList l).all = l := by
  induction l with
  | nil => rfl
  | cons m l ih => simp [Chain.ofList, Chain.all, ih]

theorem ofList_unlinked (l : List Mbuf) : (Chain.ofList l).Unlinked := by
  induction l with
  | nil => trivial
  | cons m l ih => exact ⟨rfl, ih⟩

theorem ofRecords_spec (hne : ∀ r ∈ rs, r ≠ []) :
    (ofRecords rs).records = rs ∧ (ofRecords rs).all = rs.flatten ∧ (ofRecords rs).Linked := by
  induction rs with
  | nil => exact ⟨rfl, rfl, trivial⟩
  | cons r rs ih =>
    rcases List.forall_mem_cons.mp hne with ⟨hr, hne⟩
    rcases ih hne with ⟨hrec, hall, hlink⟩
    cases r with
    | nil => exact absurd rfl hr
    | cons m r =>
      refine ⟨?_, ?_, ofList_unlinked r, hlink⟩
      · rw [ofRecords, attach, Chain.records, ofList_train, hrec]
      · rw [ofRecords, attach, Chain.all, ofList_all, hall]
        rfl

/-! ## Runs -/

/-- A record's history: the bytes appended to it, and the number dropped from its front. -/
structure Rec where
  appended : List UInt8
  dropped : ℕ
  le : dropped ≤ appended.length

/-- The bytes left of a record. -/
def Rec.left (g : Rec) : List UInt8 := g.appended.drop g.dropped

/-- A new record. -/
def Rec.new (b : List UInt8) : Rec := ⟨b, 0, Nat.zero_le _⟩

/-- A record with more bytes appended. -/
def Rec.append (g : Rec) (b : List UInt8) : Rec :=
  ⟨g.appended ++ b, g.dropped, by have := g.le; simp; omega⟩

/-- A record with more bytes dropped. -/
def Rec.drop (g : Rec) (n : ℕ) (h : n ≤ g.left.length) : Rec :=
  ⟨g.appended, g.dropped + n, by have := g.le; simp only [left, List.length_drop] at h; omega⟩

@[simp] theorem Rec.left_new (b : List UInt8) : (Rec.new b).left = b := rfl

@[simp] theorem Rec.left_append (g : Rec) (b : List UInt8) : (g.append b).left = g.left ++ b :=
  List.drop_append_of_le_length g.le

@[simp] theorem Rec.left_drop (g : Rec) (n : ℕ) (h : n ≤ g.left.length) :
    (g.drop n h).left = g.left.drop n := by
  simp [left, Rec.drop, List.drop_drop]

/-- `n` bytes dropped from the front of the records. -/
def dropRecs (n : ℕ) : List Rec → List Rec
  | [] => []
  | g :: gs =>
    if h : n < g.left.length then g.drop n h.le :: gs
    else if n = g.left.length then gs
    else dropRecs (n - g.left.length) gs

theorem dropRecs_left (n : ℕ) (gs : List Rec) :
    (dropRecs n gs).map Rec.left = dropBytes n (gs.map Rec.left) := by
  induction gs generalizing n with
  | nil => rfl
  | cons g gs ih =>
    rw [List.map_cons, dropRecs, dropBytes]
    split
    · rw [List.map_cons, Rec.left_drop]
    · split
      · rfl
      · exact ih _

/-- Calls of the operations on a new buffer, unlocked and empty, lead to `sb`; `gs` are the
histories of its records. An append goes to the last record, to a new one when the last record
has an end mark, and in an empty buffer to a first one unless nothing of the packet is kept. -/
inductive Run : Sockbuf → List Rec → Prop
  | init {sb : Sockbuf} : sb.sbMb = .null → sb.sbCc = 0 → sb.sbMbcnt = 0 → sb.sbLock = false →
      Run sb []
  | append {sb : Sockbuf} {gs : List Rec} {g : Rec} {l : List Mbuf} : Run sb (gs ++ [g]) → l ≠ [] →
      hasEor (lastRecord sb.sbMb) = false → Run (sbappend sb l) (gs ++ [g.append (bytes l)])
  | appendEnded {sb : Sockbuf} {gs : List Rec} {l : List Mbuf} : Run sb gs → l ≠ [] →
      hasEor (lastRecord sb.sbMb) = true → Run (sbappend sb l) (gs ++ [Rec.new (bytes l)])
  | appendFirst {sb : Sockbuf} {l : List Mbuf} : Run sb [] → l ≠ [] →
      Run (sbappend sb l)
        (if bytes l = [] ∧ marked l = false then [] else [Rec.new (bytes l)])
  | appendrecord {sb : Sockbuf} {gs : List Rec} {l : List Mbuf} : Run sb gs → l ≠ [] →
      Run (sbappendrecord sb l) (gs ++ [Rec.new (bytes l)])
  | insertoob {sb : Sockbuf} {gs : List Rec} {l : List Mbuf} : Run sb gs → l ≠ [] →
      Run (sbinsertoob sb l) (gs.insertIdx (oobIdx sb.sbMb.records) (Rec.new (bytes l)))
  | appendaddr {sb sb' : Sockbuf} {gs : List Rec} {asa : List UInt8} {m0 control : List Mbuf}
      {got b : Bool} : Run sb gs →
      sbappendaddr sb asa m0 control got = .ok (b, sb') →
      Run sb' (if b then gs ++ [Rec.new (asa ++ bytes (control ++ m0))] else gs)
  | appendcontrol {sb sb' : Sockbuf} {gs : List Rec} {m0 control : List Mbuf} {b : Bool} :
      Run sb gs →
      sbappendcontrol sb m0 control = .ok (b, sb') →
      Run sb' (if b then gs ++ [Rec.new (bytes (control ++ m0))] else gs)
  | drop {sb sb' : Sockbuf} {gs : List Rec} {n : ℕ} : Run sb gs → (n : ℤ) ≤ sb.sbCc →
      sbdrop sb n = .ok sb' →
      Run sb' (dropRecs n gs)
  | droprecord {sb : Sockbuf} {gs : List Rec} : Run sb gs → Run (sbdroprecord sb) gs.tail
  | flush {sb sb' : Sockbuf} {gs : List Rec} {k : ℕ} : Run sb gs → sbflush k sb = .ok sb' →
      Run sb' []

theorem map_bytes_concat {gs : List Rec} {b : List UInt8} (hb : rs.map bytes = gs.map Rec.left) :
    bytes r = b → (rs ++ [r]).map bytes = (gs ++ [Rec.new b]).map Rec.left := by
  rintro rfl
  simp [hb]

/-- After every run the buffer holds the records of the histories. -/
theorem Run.rep {gs : List Rec} (h : Run sb gs) :
    ∃ rs, Rep sb rs ∧ rs.map bytes = gs.map Rec.left := by
  induction h with
  | init hmb hcc hcnt hlock => exact ⟨[], ⟨hmb, by simp, hcc, hcnt, hlock⟩, rfl⟩
  | append _ hl hend ih =>
    rcases ih with ⟨rs, hrep, hb⟩
    rw [List.map_append, List.map_cons, List.map_nil] at hb
    rcases List.map_eq_append_iff.mp hb with ⟨rs, k, rfl, hrs, hk⟩
    rcases List.map_eq_singleton_iff.mp hk with ⟨r, rfl, hr⟩
    have hne : ∀ k ∈ rs, k ≠ [] := fun k hk => hrep.ne k (List.mem_append_left _ hk)
    rw [hrep.mb, lastRecord_ofRecords hne (hrep.ne r (by simp)), hasEor_attach_null] at hend
    rcases sbappend_rep_last hrep hend hl with ⟨r', hr', h', -⟩
    exact ⟨_, h', by simp [hrs, hr, hr']⟩
  | appendEnded _ hl hend ih =>
    rcases ih with ⟨rs, hrep, hb⟩
    rw [sbappend, if_neg hl, if_pos hend]
    rcases sbappendrecord_rep hrep hl with ⟨r, hr, h'⟩
    exact ⟨_, h', map_bytes_concat hb hr⟩
  | appendFirst _ hl ih =>
    rcases ih with ⟨rs, hrep, hb⟩
    rw [List.map_nil, List.map_eq_nil_iff] at hb
    subst hb
    rcases sbappend_rep_nil hrep hl with ⟨r, hr, hnil, h'⟩
    refine ⟨_, h', ?_⟩
    by_cases hr' : r = []
    · rw [if_pos hr', if_pos (hnil.mp hr')]
      rfl
    · rw [if_neg hr', if_neg fun hc => hr' (hnil.mpr hc)]
      simp [hr]
  | appendrecord _ hl ih =>
    rcases ih with ⟨rs, hrep, hb⟩
    rcases sbappendrecord_rep hrep hl with ⟨r, hr, h'⟩
    exact ⟨_, h', map_bytes_concat hb hr⟩
  | insertoob _ hl ih =>
    rcases ih with ⟨rs, hrep, hb⟩
    rcases sbinsertoob_rep hrep hl with ⟨r, hr, h'⟩
    refine ⟨_, h', ?_⟩
    rw [hrep.mb, (ofRecords_spec hrep.ne).1, List.map_insertIdx, List.map_insertIdx, hb, hr,
      Rec.left_new]
  | @appendaddr _ _ _ asa m0 control _ _ _ hok ih =>
    rcases ih with ⟨rs, hrep, hb⟩
    rcases sbappendaddr_ok hok with ⟨rfl, rfl⟩ | ⟨rfl, rfl⟩
    · exact ⟨rs, hrep, hb⟩
    · exact ⟨_, appendAll_rep hrep (by simp), map_bytes_concat hb rfl⟩
  | appendcontrol _ hok ih =>
    rcases ih with ⟨rs, hrep, hb⟩
    rcases sbappendcontrol_ok hok with ⟨rfl, rfl⟩ | ⟨hne, rfl, rfl⟩
    · exact ⟨rs, hrep, hb⟩
    · exact ⟨_, appendAll_rep hrep (by simp [hne]), map_bytes_concat hb rfl⟩
  | drop _ hn hok ih =>
    rcases ih with ⟨rs, hrep, hb⟩
    rcases sbdrop_rep hrep hn with ⟨sb₁, rs₁, hok₁, hrep₁, hb₁⟩
    rw [hok] at hok₁
    cases hok₁
    exact ⟨rs₁, hrep₁, by rw [hb₁, hb, dropRecs_left]⟩
  | droprecord _ ih =>
    rcases ih with ⟨rs, hrep, hb⟩
    exact ⟨rs.tail, sbdroprecord_rep hrep, by rw [List.map_tail, hb, List.map_tail]⟩
  | flush _ hok ih =>
    rcases ih with ⟨rs, hrep, -⟩
    exact ⟨[], sbflush_ok hrep hok, rfl⟩

/-- The bytes of a buffer. -/
def contents (sb : Sockbuf) : List UInt8 := bytes sb.sbMb.all

theorem Run.contents {gs : List Rec} (h : Run sb gs) :
    contents sb = (gs.map Rec.left).flatten := by
  rcases h.rep with ⟨rs, hrep, hb⟩
  rw [Sockbuf.contents, hrep.mb, (ofRecords_spec hrep.ne).2.1, bytes_flatten, hb]

/-- `sbappend` puts the bytes of a packet behind those of the buffer. -/
theorem Run.sbappend {gs : List Rec} (h : Run sb gs) (l : List Mbuf) :
    (∃ gs', Run (sbappend sb l) gs') ∧
      Sockbuf.contents (Sockbuf.sbappend sb l) = Sockbuf.contents sb ++ bytes l := by
  by_cases hl : l = []
  · subst hl
    exact ⟨⟨gs, h⟩, by simp [Sockbuf.sbappend]⟩
  · rcases List.eq_nil_or_concat gs with rfl | ⟨gs, g, rfl⟩
    · have hrun := h.appendFirst hl
      refine ⟨⟨_, hrun⟩, ?_⟩
      rw [hrun.contents, h.contents]
      split
      next hb => simp [hb.1]
      next => simp
    · rw [List.concat_eq_append] at h
      cases hend : hasEor (lastRecord sb.sbMb) with
      | false =>
        have hrun := h.append hl hend
        refine ⟨⟨_, hrun⟩, ?_⟩
        rw [hrun.contents, h.contents]
        simp
      | true =>
        have hrun := h.appendEnded hl hend
        refine ⟨⟨_, hrun⟩, ?_⟩
        rw [hrun.contents, h.contents]
        simp

/-- After every run from a new buffer: the counts are those of the mbufs reached from `sb_mb`,
record links are on first mbufs only, each record has the bytes appended to it less those
dropped from its front, `sbdrop` of at most `sb_cc` bytes meets no panic, and `sbflush` ends
with an empty buffer. -/
theorem run_exact {gs : List Rec} (h : Run sb gs) :
    sb.sbCc = lens sb.sbMb.all ∧ sb.sbMbcnt = stores sb.sbMb.all ∧ sb.sbMb.Linked ∧
      sb.sbMb.records.map bytes = gs.map Rec.left ∧
      (∀ n : ℕ, (n : ℤ) ≤ sb.sbCc → ∃ sb', sbdrop sb n = .ok sb') ∧
      ∃ k, ∀ j, k ≤ j → ∃ sb', sbflush j sb = .ok sb' ∧
        sb'.sbMb = .null ∧ sb'.sbCc = 0 ∧ sb'.sbMbcnt = 0 := by
  rcases h.rep with ⟨rs, hrep, hb⟩
  rcases ofRecords_spec hrep.ne with ⟨hrec, hall, hlink⟩
  rw [hrep.mb, hall, hrec]
  refine ⟨hrep.cc, hrep.mbcnt, hlink, hb, ?_, rs.length, ?_⟩
  · intro n hn
    rcases sbdrop_rep hrep hn with ⟨sb', _, hok, -⟩
    exact ⟨sb', hok⟩
  · intro j hj
    rcases sbflush_rep hrep hj with ⟨sb', hok, h'⟩
    exact ⟨sb', hok, h'.mb, h'.cc, h'.mbcnt⟩

/-- A new buffer with room for eight bytes. -/
def newBuf : Sockbuf := ⟨0, 8, 0, 512, .null, false⟩

/-- An mbuf with the bytes `b` at its start. -/
def dataBuf (b : List UInt8) : Mbuf := ⟨.data, none, none, false, 0, b⟩

/-- The second packet goes into the mbuf of the first one. -/
theorem run_newBuf :
    Run (sbappend (sbappendrecord newBuf [dataBuf [1, 2]]) [dataBuf [3]]) [Rec.new [1, 2, 3]] := by
  have hinit : Run newBuf [] := Run.init rfl rfl rfl rfl
  exact Run.append (Run.appendrecord hinit (by decide)) (by decide) rfl

/-- Two bytes dropped from the front of the record. -/
theorem run_exact_newBuf : ∃ sb',
    sbdrop (sbappend (sbappendrecord newBuf [dataBuf [1, 2]]) [dataBuf [3]]) 2 = .ok sb' ∧
      sb'.sbCc = 1 ∧ sb'.sbCc = lens sb'.sbMb.all ∧ sb'.sbMb.records.map bytes = [[3]] := by
  have hdrop := run_newBuf.drop (n := 2) (by decide) rfl
  exact ⟨_, rfl, rfl, (run_exact hdrop).1, (run_exact hdrop).2.2.2.1⟩

end Sockbuf
