import Mathlib.Data.Fintype.Card
import Mathlib.Data.List.Basic
import NetBsd.Net.Slip.RoundTrip
import NetBsd.Net.Slip.Sender

/-!
# The order of the sender's states

The circle of transmit states is kept in the order of last use: a state that is found, or taken for
a new conversation, goes to the front. A header of up to 120 bytes is copied into a state, which
has room for `MAX_HDR`; a longer one runs over the pointer of the next state.

## Main definitions

* `slUsed`: the state that a call uses
* `Recent`: the list is in the order of last use
* `Run`: calls from `sl_compress_init` on, with the states that they have used

## Main results

* `slCompressTcp_ring`: what a call does to the circle
* `slCompressTcp_none_iff`: which headers are too long
* `Run.recent`: the circle has every state, in the order of last use
-/

namespace Slip

open Ring (IsRing)

variable {m m' : Mbuf} {s s' : Slcompress} {t : PktType} {c cs : Fin MAX_STATES} {cid : Int}
  {l uses : List (Fin MAX_STATES)}

/-! ## The state that is used -/

/-- The state that `sl_compress_tcp` uses, and whether it was found. -/
def slUsed (m : Mbuf) (comp : Slcompress) : Option (Fin MAX_STATES × Bool) :=
  let ip := m.m_data
  let cs := (comp.tstate comp.last_cs).cs_next
  if ip.get16 6 &&& 0x3fff ≠ 0 ∨ m.m_len < 40 then none
  else if ip (4 * ipHl ip + 13) &&& (TH_SYN ||| TH_FIN ||| TH_RST ||| TH_ACK) ≠ TH_ACK then none
  else if slMatch ip (comp.tstate cs).cs_hdr then some (cs, true)
  else (slSearch comp.tstate ip comp.last_cs MAX_STATES cs).map fun r => (r.2.1, r.2.2)

/-- The states after one of them was used. -/
def touch (l : List (Fin MAX_STATES)) : Option (Fin MAX_STATES × Bool) → List (Fin MAX_STATES)
  | some (c, _) => c :: l.erase c
  | none => l

/-- The circle and the conversations of `s'` are those of `s`. -/
structure Kept (s s' : Slcompress) : Prop where
  last : s'.last_cs = s.last_cs
  next : ∀ i, (s'.tstate i).cs_next = (s.tstate i).cs_next
  id : ∀ i, (s'.tstate i).cs_id = (s.tstate i).cs_id

theorem Kept.refl (s : Slcompress) : Kept s s := ⟨rfl, fun _ => rfl, fun _ => rfl⟩

theorem Kept.ring (h : Kept s s') (hl : IsRing (fun i => (s.tstate i).cs_next) s.last_cs l) :
    IsRing (fun i => (s'.tstate i).cs_next) s'.last_cs l := by
  rw [h.last, show (fun i => (s'.tstate i).cs_next) = fun i => (s.tstate i).cs_next from
    funext h.next]
  exact hl

theorem slUncompressed_kept (h : slUncompressed m s cs = some (t, m', s')) : Kept s s' := by
  unfold slUncompressed at h
  dsimp only at h
  split_ifs at h
  simp only [Option.some.injEq, Prod.mk.injEq] at h
  rw [← h.2.2]
  refine ⟨rfl, ?_, ?_⟩ <;> intro i <;> by_cases hi : i = cs <;> simp [hi]

theorem slCompressed_kept {d : BitVec 8 × List (BitVec 8)}
    (h : slCompressed m s cs cid d = some (t, m', s')) : Kept s s' := by
  unfold slCompressed at h
  dsimp only at h
  split_ifs at h
  simp only [Option.some.injEq, Prod.mk.injEq] at h
  rw [← h.2.2]
  refine ⟨rfl, ?_, ?_⟩ <;> intro i <;> by_cases hi : i = cs <;> simp [hi]

theorem slFound_kept (h : slFound m s cs cid = some (t, m', s')) : Kept s s' := by
  unfold slFound at h
  dsimp only at h
  split_ifs at h with hlen hshape
  · simp only [Option.some.injEq, Prod.mk.injEq] at h
    rw [← h.2.2]
    exact Kept.refl s
  · cases hd : slDeltas m.m_data (s.tstate cs).cs_hdr with
    | none =>
      rw [hd] at h
      exact slUncompressed_kept h
    | some d =>
      rw [hd] at h
      exact slCompressed_kept h
  · exact slUncompressed_kept h

theorem erase_middle {pre post : List (Fin MAX_STATES)} (h : (pre ++ c :: post).Nodup) :
    (pre ++ c :: post).erase c = pre ++ post := by
  have hc : c ∉ pre := by
    intro hc
    exact (List.nodup_append.mp h).2.2 c hc c (by simp) rfl
  rw [List.erase_append_right _ hc, List.erase_cons_head]

/-- Moving a state to the front. -/
theorem slToFront_ring {lcs : Fin MAX_STATES} {pre post : List (Fin MAX_STATES)}
    (h : IsRing (fun i => (s.tstate i).cs_next) s.last_cs (pre ++ lcs :: cs :: post)) :
    IsRing (fun i => ((slToFront s lcs cs).tstate i).cs_next) (slToFront s lcs cs).last_cs
        (cs :: (pre ++ lcs :: post)) ∧
      ∀ i, ((slToFront s lcs cs).tstate i).cs_id = (s.tstate i).cs_id := by
  unfold slToFront
  dsimp only
  rcases post.eq_nil_or_concat' with rfl | ⟨post, last, rfl⟩
  · have hcs : cs = s.last_cs := by simpa using h.getLast
    rw [if_pos hcs]
    rw [hcs] at h ⊢
    exact ⟨h.rotate, fun _ => rfl⟩
  · have hlast : last = s.last_cs := by
      have hlast := h.getLast
      rw [show pre ++ lcs :: cs :: (post ++ [last]) = (pre ++ lcs :: cs :: post) ++ [last] by simp,
        List.getLast?_concat] at hlast
      exact Option.some.inj hlast
    subst hlast
    have hcs : cs ≠ s.last_cs := by
      have hnd := (List.nodup_append.mp h.nodup).2.1
      rw [List.nodup_cons, List.nodup_cons] at hnd
      intro he
      exact hnd.2.1 (List.mem_append_right _ (by rw [he]; exact List.mem_singleton_self _))
    rw [if_neg hcs]
    exact ⟨h.moveToFront, fun _ => rfl⟩

/-! ## A call -/

/-- A call moves the state that it uses to the front, and keeps the conversations; a state that was
not found is the last one. -/
theorem slCompressTcp_ring (m : Mbuf) (cid : Int)
    (hl : IsRing (fun i => (s.tstate i).cs_next) s.last_cs l)
    (hlen : l.length = MAX_STATES) :
    (∀ t m' s', slCompressTcp m s cid = some (t, m', s') →
      IsRing (fun i => (s'.tstate i).cs_next) s'.last_cs (touch l (slUsed m s)) ∧
        ∀ i, (s'.tstate i).cs_id = (s.tstate i).cs_id) ∧
    ∀ c found, slUsed m s = some (c, found) → c ∈ l ∧ (found = false → l.getLast? = some c) := by
  unfold slCompressTcp slUsed
  dsimp only
  by_cases hfrag : m.m_data.get16 6 &&& 0x3fff ≠ 0 ∨ m.m_len < 40
  · rw [if_pos hfrag, if_pos hfrag]
    refine ⟨?_, by simp⟩
    intro t m' s' h
    simp only [Option.some.injEq, Prod.mk.injEq] at h
    rw [← h.2.2]
    exact ⟨hl, fun _ => rfl⟩
  rw [if_neg hfrag, if_neg hfrag]
  by_cases hack : m.m_data (4 * ipHl m.m_data + 13) &&&
      (TH_SYN ||| TH_FIN ||| TH_RST ||| TH_ACK) ≠ TH_ACK
  · rw [if_pos hack, if_pos hack]
    refine ⟨?_, by simp⟩
    intro t m' s' h
    simp only [Option.some.injEq, Prod.mk.injEq] at h
    rw [← h.2.2]
    exact ⟨hl, fun _ => rfl⟩
  rw [if_neg hack, if_neg hack]
  obtain ⟨a, u, rfl⟩ : ∃ a u, l = a :: u := by
    cases l with
    | nil => cases hlen
    | cons a u => exact ⟨a, u, rfl⟩
  have hhead : (s.tstate s.last_cs).cs_next = a := hl.next_last
  by_cases hm : slMatch m.m_data (s.tstate (s.tstate s.last_cs).cs_next).cs_hdr
  · -- the first state is the one, and stays where it is
    rw [if_pos hm, if_pos hm, hhead]
    refine ⟨?_, ?_⟩
    · intro t m' s' h
      have hk := slFound_kept h
      refine ⟨?_, hk.id⟩
      rw [touch, List.erase_cons_head]
      exact hk.ring hl
    · intro c found h
      simp only [Option.some.injEq, Prod.mk.injEq] at h
      rw [← h.1, ← h.2]
      exact ⟨by simp, by simp⟩
  rw [if_neg hm, if_neg hm]
  obtain ⟨b, u, rfl⟩ : ∃ b v, u = b :: v := by
    cases u with
    | nil => cases hlen
    | cons b v => exact ⟨b, v, rfl⟩
  have hlast : (b :: u).getLast? = some s.last_cs := by
    have hlast := hl.getLast
    rwa [List.getLast?_cons_cons] at hlast
  obtain ⟨pre, lcs, cs, post, found, hsearch, heq, -, hpost⟩ :=
    slSearch_spec m.m_data (n := MAX_STATES) hl.links.2 hlast
      (List.nodup_cons.mp hl.nodup).2 (Nat.le_of_succ_le (Nat.le_of_eq hlen))
  rw [hhead, hsearch]
  rw [heq] at hl ⊢
  have hsplit : pre ++ lcs :: cs :: post = (pre ++ [lcs]) ++ cs :: post := by simp
  have herase : (pre ++ lcs :: cs :: post).erase cs = pre ++ lcs :: post := by
    rw [hsplit, erase_middle (hsplit ▸ hl.nodup)]
    simp
  refine ⟨?_, ?_⟩
  · simp only [Option.map_some, touch, herase]
    intro t m' s' h
    cases found with
    | true =>
      obtain ⟨hring, hid⟩ := slToFront_ring hl
      have hk := slFound_kept h
      exact ⟨hk.ring hring, fun i => (hk.id i).trans (hid i)⟩
    | false =>
      obtain rfl := hpost rfl
      have hcs : cs = s.last_cs := by simpa using hl.getLast
      have hring : IsRing (fun i => (s.tstate i).cs_next) lcs (cs :: (pre ++ [lcs])) := by
        rw [hcs] at hl ⊢
        exact hl.rotate
      dsimp only at h
      split_ifs at h
      · simp only [Option.some.injEq, Prod.mk.injEq] at h
        rw [← h.2.2]
        exact ⟨hring, fun _ => rfl⟩
      · have hk := slUncompressed_kept h
        exact ⟨hk.ring hring, hk.id⟩
  · intro c found' h
    simp only [Option.map_some, Option.some.injEq, Prod.mk.injEq] at h
    rw [← h.1, ← h.2]
    refine ⟨by simp, ?_⟩
    intro hf
    rw [hpost hf]
    simp

/-! ## Headers that are too long -/

theorem slFound_none_iff (hl : 5 ≤ ipHl m.m_data) :
    slFound m s cs cid = none ↔ hdrLen m.m_data ≤ m.m_len ∧ MAX_HDR < hdrLen m.m_data := by
  unfold slFound
  dsimp only
  split_ifs with hlen hshape
  · simp only [false_iff, not_and]
    omega
  · rw [Nat.not_lt] at hlen
    cases hd : slDeltas m.m_data (s.tstate cs).cs_hdr with
    | none => simp [slUncompressed, hlen]
    | some d =>
      have hfront : (slFront m.m_data s cs cid
          (slDeltaId m.m_data (s.tstate cs).cs_hdr d)).length ≤ hdrLen m.m_data := by
        have hd' := length_slDeltaId_le hd
        have hfour : (slFront m.m_data s cs cid
            (slDeltaId m.m_data (s.tstate cs).cs_hdr d)).length ≤
              4 + (slDeltaId m.m_data (s.tstate cs).cs_hdr d).2.length := by
          unfold slFront
          dsimp only
          split_ifs <;> simp only [List.length_append, List.length_cons, List.length_nil] <;> omega
        have hmin : 20 ≤ hdrLen m.m_data := by
          unfold hdrLen
          omega
        omega
      have hno : ¬hdrLen m.m_data < (slFront m.m_data s cs cid
          (slDeltaId m.m_data (s.tstate cs).cs_hdr d)).length := Nat.not_lt.mpr hfront
      simp [slCompressed, hno, hlen]
  · rw [Nat.not_lt] at hlen
    simp [slUncompressed, hlen]

/-- A packet whose header is not too long for a state, if it is to be copied. -/
def Short (m : Mbuf) : Prop := Eligible m → hdrLen m.m_data ≤ MAX_HDR

instance (m : Mbuf) : Decidable (Short m) := inferInstanceAs (Decidable (_ → _))

/-- A copy runs over the end of a state exactly for the packets that are not short. -/
theorem slCompressTcp_none_iff (h : LinkedStates s) (hl : 5 ≤ ipHl m.m_data) :
    slCompressTcp m s cid = none ↔ ¬Short m := by
  obtain ⟨l, hring, hlen⟩ := h
  unfold slCompressTcp Short
  dsimp only
  by_cases hfrag : m.m_data.get16 6 &&& 0x3fff ≠ 0 ∨ m.m_len < 40
  · rw [if_pos hfrag]
    simp only [reduceCtorEq, false_iff, not_not]
    intro he
    obtain hf | hf := hfrag
    · exact absurd he.frag hf
    · exact absurd he.len (Nat.not_le.mpr hf)
  rw [if_neg hfrag]
  by_cases hack : m.m_data (4 * ipHl m.m_data + 13) &&&
      (TH_SYN ||| TH_FIN ||| TH_RST ||| TH_ACK) ≠ TH_ACK
  · rw [if_pos hack]
    simp only [reduceCtorEq, false_iff, not_not]
    intro he
    exact absurd he.flags hack
  rw [if_neg hack]
  rw [not_or, not_not, Nat.not_lt] at hfrag
  have hiff : ¬(Eligible m → hdrLen m.m_data ≤ MAX_HDR) ↔
      hdrLen m.m_data ≤ m.m_len ∧ MAX_HDR < hdrLen m.m_data := by
    rw [Classical.not_imp, Nat.not_le]
    constructor
    · rintro ⟨he, hlong⟩
      exact ⟨he.hdr, hlong⟩
    · rintro ⟨hle, hlong⟩
      exact ⟨⟨hfrag.1, hfrag.2, not_not.mp hack, hle⟩, hlong⟩
  rw [hiff]
  by_cases hm : slMatch m.m_data (s.tstate (s.tstate s.last_cs).cs_next).cs_hdr
  · rw [if_pos hm]
    exact slFound_none_iff hl
  · rw [if_neg hm]
    obtain ⟨a, u, rfl⟩ : ∃ a u, l = a :: u := by
      cases l with
      | nil => cases hlen
      | cons a u => exact ⟨a, u, rfl⟩
    obtain ⟨b, u, rfl⟩ : ∃ b v, u = b :: v := by
      cases u with
      | nil => cases hlen
      | cons b v => exact ⟨b, v, rfl⟩
    have hlast : (b :: u).getLast? = some s.last_cs := by
      have hlast := hring.getLast
      rwa [List.getLast?_cons_cons] at hlast
    obtain ⟨pre, lcs, cs, post, found, hsearch, -, -, -⟩ :=
      slSearch_spec m.m_data (n := MAX_STATES) hring.links.2 hlast
        (List.nodup_cons.mp hring.nodup).2 (Nat.le_of_succ_le (Nat.le_of_eq hlen))
    have hhead : (s.tstate s.last_cs).cs_next = a := hring.next_last
    rw [hhead, hsearch]
    cases found with
    | true => exact slFound_none_iff hl
    | false =>
      dsimp only
      split_ifs with hle
      · simp only [false_iff, not_and]
        omega
      · simp [slUncompressed, Nat.not_lt.mp hle]

/-! ## Runs -/

/-- The list is in the order of last use, where `uses` has the last use first. -/
def Recent (uses l : List (Fin MAX_STATES)) : Prop :=
  l.Pairwise fun a b => uses.idxOf a ≤ uses.idxOf b

/-- Calls from `sl_compress_init` on, for packets with short headers, and the states that have been
used, the last use first. -/
inductive Run : Slcompress → List (Fin MAX_STATES) → Prop where
  | init : Run slCompressInit []
  | call {s s' : Slcompress} {uses : List (Fin MAX_STATES)} {m m' : Mbuf} {t : PktType}
      {cid : Int} (h : Run s uses) (hshort : Short m)
      (hc : slCompressTcp m s cid = some (t, m', s')) :
      Run s' (((slUsed m s).map Prod.fst).toList ++ uses)

theorem Recent.touch (h : Recent uses l) (hnd : l.Nodup) (c : Fin MAX_STATES) :
    Recent (c :: uses) (c :: l.erase c) := by
  refine List.Pairwise.cons ?_ ?_
  · intro a _
    simp
  · refine ((h.sublist List.erase_sublist).imp_of_mem ?_)
    intro a b ha hb hab
    have hac : c ≠ a := by
      rintro rfl
      exact (hnd.not_mem_erase) ha
    have hbc : c ≠ b := by
      rintro rfl
      exact (hnd.not_mem_erase) hb
    rw [List.idxOf_cons_ne _ hac, List.idxOf_cons_ne _ hbc]
    exact Nat.succ_le_succ hab

/-- Every call leaves one circle of all the states, in the order of last use; a new conversation gets
the state that has not been used for longest, and no connection id is lost. -/
theorem Run.recent (h : Run s uses) :
    (∃ l, IsRing (fun i => (s.tstate i).cs_next) s.last_cs l ∧ (∀ i, i ∈ l) ∧ Recent uses l) ∧
    (∀ i, (s.tstate i).cs_id = BitVec.ofNat 8 i) ∧
    ∀ m cid, 5 ≤ ipHl m.m_data → (slCompressTcp m s cid = none ↔ ¬Short m) ∧
      ∀ c, slUsed m s = some (c, false) → ∀ i, uses.idxOf i ≤ uses.idxOf c := by
  have hrun : (∃ l, IsRing (fun i => (s.tstate i).cs_next) s.last_cs l ∧
      l.length = MAX_STATES ∧ Recent uses l) ∧
      ∀ i, (s.tstate i).cs_id = BitVec.ofNat 8 i := by
    induction h with
    | init =>
      obtain ⟨l, hl, hlen⟩ := linked_init.states
      refine ⟨⟨l, hl, hlen, ?_⟩, fun _ => rfl⟩
      exact List.pairwise_of_forall (by simp)
    | @call s s' uses m m' t cid _ _ hc ih =>
      obtain ⟨⟨l, hl, hlen, hrec⟩, hid⟩ := ih
      obtain ⟨hret, hmem⟩ := slCompressTcp_ring m cid hl hlen
      obtain ⟨hring, hid'⟩ := hret _ _ _ hc
      refine ⟨⟨_, hring, ?_, ?_⟩, fun i => (hid' i).trans (hid i)⟩
      · cases hu : slUsed m s with
        | none => exact hlen
        | some c =>
          have hc := (hmem c.1 c.2 hu).1
          have hpos := List.length_pos_of_mem hc
          rw [Slip.touch, List.length_cons, List.length_erase_of_mem hc]
          omega
      · cases hu : slUsed m s with
        | none => exact hrec
        | some c => exact hrec.touch hl.nodup c.1
  obtain ⟨⟨l, hl, hlen, hrec⟩, hid⟩ := hrun
  have hall : ∀ i, i ∈ l := by
    intro i
    have hcard : l.toFinset = Finset.univ := by
      rw [← Finset.card_eq_iff_eq_univ, List.toFinset_card_of_nodup hl.nodup, hlen]
      rfl
    exact List.mem_toFinset.mp (hcard ▸ Finset.mem_univ i)
  refine ⟨⟨l, hl, hall, hrec⟩, hid, ?_⟩
  intro m cid hip
  refine ⟨slCompressTcp_none_iff ⟨l, hl, hlen⟩ hip, ?_⟩
  intro c hc i
  have hlast := ((slCompressTcp_ring m cid hl hlen).2 c false hc).2 rfl
  obtain ⟨pre, rfl⟩ := List.getLast?_eq_some_iff.mp hlast
  have hi := hall i
  rw [List.mem_append, List.mem_singleton] at hi
  obtain hi | hi := hi
  · exact (List.pairwise_append.mp hrec).2.2 i hi c (by simp)
  · rw [hi]

/-- A TCP packet with 40 bytes of IP options and 32 bytes of TCP options. -/
def longPacket : Mbuf where
  m_data i := if i = 0 then 0x4f else if i = 12 then 10 else if i = 72 then 0xd0
    else if i = 73 then 0x10 else 0
  m_len := 200
  rest := []

/-- Its header is copied over the end of a state. -/
theorem longPacket_overruns : Eligible longPacket ∧ hdrLen longPacket.m_data = 112 ∧
    slCompressTcp longPacket slCompressInit 1 = none := by
  have he : Eligible longPacket := by decide +kernel
  have hl : hdrLen longPacket.m_data = 112 := by decide +kernel
  refine ⟨he, hl, (slCompressTcp_none_iff linked_init.states (by decide +kernel)).mpr ?_⟩
  intro hshort
  exact absurd (hshort he) (by rw [hl]; decide)

/-- A run of one segment. -/
theorem Run.recent_one : ∃ s uses l, Run s uses ∧
    IsRing (fun i => (s.tstate i).cs_next) s.last_cs l ∧ Recent uses l := by
  have h0 := Run.init
  have hshort : Short (send (segment 1 0xcc 1 0x10)).m := by decide +kernel
  have hl : 5 ≤ ipHl (send (segment 1 0xcc 1 0x10)).m.m_data := by decide +kernel
  have hret : slCompressTcp (send (segment 1 0xcc 1 0x10)).m slCompressInit 1 ≠ none := by
    rw [Ne, slCompressTcp_none_iff linked_init.states hl, not_not]
    exact hshort
  obtain ⟨⟨t, m', s'⟩, hc⟩ := Option.ne_none_iff_exists'.mp hret
  have h1 := Run.call h0 hshort hc
  obtain ⟨⟨l, hring, -, hrec⟩, -, -⟩ := Run.recent h1
  exact ⟨_, _, l, h1, hring, hrec⟩

end Slip
