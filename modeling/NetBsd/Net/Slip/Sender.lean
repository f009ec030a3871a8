import NetBsd.Net.Slip.Compress

/-!
# The ways the sender leaves

The sender looks for the conversation of a packet in a circular list of states, which it keeps
in the order of last use. Whatever it finds, it leaves in one of three ways: with the packet as
it is, with the packet and its conversation, or with the changes to a saved header.

## Main definitions

* `Eligible m`: the packet is not sent as plain IP
* `LinkedStates s`: the transmit states form one circle
* `Reordered s s'`: the same states in another order

## Main results

* `slSearch_spec`: the search follows the circle and ends
* `slCompressTcp_cases`: the three ways the sender leaves
-/

namespace Slip

open Ring (IsRing Links)

variable {m : Mbuf} {s s' : Slcompress} {cs : Fin MAX_STATES} {cid : Int}

/-- The packet is not sent as plain IP, whatever the sender's state. -/
structure Eligible (m : Mbuf) : Prop where
  frag : m.m_data.get16 6 &&& 0x3fff = 0
  len : 40 ≤ m.m_len
  flags : m.m_data (4 * ipHl m.m_data + 13) &&& (TH_SYN ||| TH_FIN ||| TH_RST ||| TH_ACK) = TH_ACK
  hdr : hdrLen m.m_data ≤ m.m_len

instance (m : Mbuf) : Decidable (Eligible m) :=
  decidable_of_iff
    (m.m_data.get16 6 &&& 0x3fff = 0 ∧ 40 ≤ m.m_len ∧
      m.m_data (4 * ipHl m.m_data + 13) &&& (TH_SYN ||| TH_FIN ||| TH_RST ||| TH_ACK) = TH_ACK ∧
      hdrLen m.m_data ≤ m.m_len)
    ⟨fun ⟨h₁, h₂, h₃, h₄⟩ => ⟨h₁, h₂, h₃, h₄⟩, fun ⟨h₁, h₂, h₃, h₄⟩ => ⟨h₁, h₂, h₃, h₄⟩⟩

/-! ## The sender's list of states -/

/-- The transmit states are linked into one circle that ends at `last_cs`. -/
def LinkedStates (s : Slcompress) : Prop :=
  ∃ l, IsRing (fun i => (s.tstate i).cs_next) s.last_cs l ∧ l.length = MAX_STATES

/-- The states of the sender in another order. -/
structure Reordered (s s' : Slcompress) : Prop where
  xmit : s'.last_xmit = s.last_xmit
  hdr : ∀ i, (s'.tstate i).cs_hdr = (s.tstate i).cs_hdr
  id : ∀ i, (s'.tstate i).cs_id = (s.tstate i).cs_id
  linked : LinkedStates s'

theorem Reordered.refl (h : LinkedStates s) : Reordered s s :=
  ⟨rfl, fun _ => rfl, fun _ => rfl, h⟩

/-- The search follows the list, and stops at a state that matches or at the end. -/
theorem slSearch_spec (ip : ByteMem) {tstate : Fin MAX_STATES → Cstate} {lastcs : Fin MAX_STATES} {n : ℕ}
    {lcs : Fin MAX_STATES} {t : List (Fin MAX_STATES)}
    (hl : Links (fun i => (tstate i).cs_next) lcs t) (hlast : t.getLast? = some lastcs)
    (hnd : t.Nodup) (hn : t.length ≤ n) :
    ∃ pre a b post found, slSearch tstate ip lastcs n lcs = some (a, b, found) ∧
      lcs :: t = pre ++ a :: b :: post ∧ (found = true → slMatch ip (tstate b).cs_hdr) ∧
      (found = false → post = []) := by
  induction t generalizing lcs n with
  | nil => simp at hlast
  | cons c t ih =>
    obtain ⟨hc, hl⟩ := hl
    obtain ⟨n, rfl⟩ : ∃ k, n = k + 1 := ⟨n - 1, by rw [List.length_cons] at hn; omega⟩
    rw [slSearch]
    dsimp only at hc ⊢
    rw [hc]
    by_cases hm : slMatch ip (tstate c).cs_hdr
    · rw [if_pos hm]
      exact ⟨[], lcs, c, t, true, rfl, rfl, fun _ => hm,
        fun h => absurd h.symm Bool.false_ne_true⟩
    rw [if_neg hm]
    by_cases hend : c = lastcs
    · rw [if_neg (not_not.mpr hend)]
      refine ⟨[], lcs, c, t, false, rfl, rfl, fun h => absurd h Bool.false_ne_true, fun _ => ?_⟩
      -- a state met twice would end the list only if nothing follows it
      cases t with
      | nil => rfl
      | cons e t =>
        rw [List.getLast?_cons_cons] at hlast
        have := List.mem_of_getLast? hlast
        rw [← hend] at this
        exact absurd this (List.nodup_cons.mp hnd).1
    · rw [if_pos hend]
      have hne : t.getLast? = some lastcs := by
        cases t with
        | nil =>
          rw [List.getLast?_singleton, Option.some.injEq] at hlast
          exact absurd hlast hend
        | cons e t => rwa [List.getLast?_cons_cons] at hlast
      obtain ⟨pre, a, b, post, found, hs, heq, h₁, h₂⟩ := ih hl hne (List.nodup_cons.mp hnd).2
        (Nat.le_of_succ_le_succ hn)
      exact ⟨lcs :: pre, a, b, post, found, hs, by rw [heq]; rfl, h₁, h₂⟩

theorem LinkedStates.congr (h : LinkedStates s) (hlast : s'.last_cs = s.last_cs)
    (hnext : ∀ i, (s'.tstate i).cs_next = (s.tstate i).cs_next) : LinkedStates s' := by
  obtain ⟨l, hl, hlen⟩ := h
  refine ⟨l, ?_, hlen⟩
  rw [hlast, show (fun i => (s'.tstate i).cs_next) = fun i => (s.tstate i).cs_next from
    funext hnext]
  exact hl

/-- The list entered one state earlier. -/
theorem reordered_rotate {lcs : Fin MAX_STATES} {pre : List (Fin MAX_STATES)}
    (h : IsRing (fun i => (s.tstate i).cs_next) s.last_cs (pre ++ [lcs, cs]))
    (hlen : (pre ++ [lcs, cs]).length = MAX_STATES) :
    Reordered s { s with last_cs := lcs } := by
  obtain rfl : cs = s.last_cs := by simpa using h.getLast
  refine ⟨rfl, fun _ => rfl, fun _ => rfl, _, h.rotate, ?_⟩
  simp only [List.length_append, List.length_cons, List.length_nil] at hlen ⊢
  omega

theorem slToFront_reordered {lcs : Fin MAX_STATES} {pre post : List (Fin MAX_STATES)}
    (h : IsRing (fun i => (s.tstate i).cs_next) s.last_cs (pre ++ lcs :: cs :: post))
    (hlen : (pre ++ lcs :: cs :: post).length = MAX_STATES) :
    Reordered s (slToFront s lcs cs) := by
  unfold slToFront
  dsimp only
  rcases post.eq_nil_or_concat' with rfl | ⟨post, last, rfl⟩
  · have hcs : cs = s.last_cs := by simpa using h.getLast
    rw [if_pos hcs]
    exact reordered_rotate h hlen
  · have hlast : last = s.last_cs := by
      have := h.getLast
      rw [show pre ++ lcs :: cs :: (post ++ [last]) = (pre ++ lcs :: cs :: post) ++ [last] by simp,
        List.getLast?_concat] at this
      exact Option.some.inj this
    subst hlast
    have hcs : cs ≠ s.last_cs := by
      have := (List.nodup_append.mp h.nodup).2.1
      rw [List.nodup_cons, List.nodup_cons] at this
      exact fun he => this.2.1 (List.mem_append_right _ (by rw [he]; exact List.mem_singleton_self _))
    rw [if_neg hcs]
    refine ⟨rfl, fun _ => rfl, fun _ => rfl, _, h.moveToFront, ?_⟩
    simp only [List.length_append, List.length_cons, List.length_nil] at hlen ⊢
    omega

/-! ## The ways the sender leaves -/

/-- The sender leaves with a plain packet, or sends the packet with its conversation, whole or,
against a saved header of the same shape, as changes. -/
theorem slCompressTcp_cases (h : LinkedStates s) (m : Mbuf) (cid : Int) :
    ∃ s', Reordered s s' ∧ (slCompressTcp m s cid = some (.ip, m, s') ∨
      Eligible m ∧ ∃ cs, slCompressTcp m s cid = slUncompressed m s' cs ∨
        ∃ d, slMatch m.m_data (s.tstate cs).cs_hdr ∧ slSameShape m.m_data (s.tstate cs).cs_hdr ∧
          slDeltas m.m_data (s.tstate cs).cs_hdr = some d ∧
          slCompressTcp m s cid =
            slCompressed m s' cs cid (slDeltaId m.m_data (s.tstate cs).cs_hdr d)) := by
  have hfound : ∀ s' cs, Reordered s s' → slMatch m.m_data (s.tstate cs).cs_hdr →
      slFound m s' cs cid = some (.ip, m, s') ∨ hdrLen m.m_data ≤ m.m_len ∧
        (slFound m s' cs cid = slUncompressed m s' cs ∨
        ∃ d, slMatch m.m_data (s.tstate cs).cs_hdr ∧ slSameShape m.m_data (s.tstate cs).cs_hdr ∧
          slDeltas m.m_data (s.tstate cs).cs_hdr = some d ∧
          slFound m s' cs cid =
            slCompressed m s' cs cid (slDeltaId m.m_data (s.tstate cs).cs_hdr d)) := by
    intro s' cs hr hm
    unfold slFound
    dsimp only
    rw [hr.hdr]
    by_cases hlen : hdrLen m.m_data > m.m_len
    · rw [if_pos hlen]
      exact Or.inl rfl
    rw [if_neg hlen]
    refine Or.inr ⟨Nat.le_of_not_lt hlen, ?_⟩
    by_cases hs : slSameShape m.m_data (s.tstate cs).cs_hdr
    · rw [if_neg (not_not.mpr hs)]
      cases hd : slDeltas m.m_data (s.tstate cs).cs_hdr with
      | none => exact Or.inl rfl
      | some d => exact Or.inr ⟨d, hm, hs, rfl, rfl⟩
    · rw [if_pos hs]
      exact Or.inl rfl
  unfold slCompressTcp
  dsimp only
  by_cases hfrag : m.m_data.get16 6 &&& 0x3fff ≠ 0 ∨ m.m_len < 40
  · rw [if_pos hfrag]
    exact ⟨s, .refl h, Or.inl rfl⟩
  rw [if_neg hfrag]
  by_cases hack : m.m_data (4 * ipHl m.m_data + 13) &&&
      (TH_SYN ||| TH_FIN ||| TH_RST ||| TH_ACK) ≠ TH_ACK
  · rw [if_pos hack]
    exact ⟨s, .refl h, Or.inl rfl⟩
  rw [if_neg hack]
  rw [not_or, not_not, Nat.not_lt] at hfrag
  have helig : hdrLen m.m_data ≤ m.m_len → Eligible m := fun hlen =>
    ⟨hfrag.1, hfrag.2, not_not.mp hack, hlen⟩
  by_cases hm : slMatch m.m_data (s.tstate (s.tstate s.last_cs).cs_next).cs_hdr
  · rw [if_pos hm]
    refine ⟨s, .refl h, ?_⟩
    rcases hfound s _ (.refl h) hm with hip | ⟨hlen, hf⟩
    · exact Or.inl hip
    · exact Or.inr ⟨helig hlen, _, hf⟩
  rw [if_neg hm]
  obtain ⟨l, hl, hlen⟩ := h
  obtain ⟨a, t, rfl⟩ : ∃ a t, l = a :: t := by
    cases l with
    | nil => cases hlen
    | cons a t => exact ⟨a, t, rfl⟩
  obtain ⟨c, t, rfl⟩ : ∃ c u, t = c :: u := by
    cases t with
    | nil => cases hlen
    | cons c u => exact ⟨c, u, rfl⟩
  have hhead : (s.tstate s.last_cs).cs_next = a := hl.next_last
  have hlast : (c :: t).getLast? = some s.last_cs := by
    have := hl.getLast
    rwa [List.getLast?_cons_cons] at this
  obtain ⟨pre, lcs, cs, post, found, hsearch, heq, hmatch, hpost⟩ :=
    slSearch_spec m.m_data (n := MAX_STATES) hl.links.2 hlast
      (List.nodup_cons.mp hl.nodup).2 (Nat.le_of_succ_le (Nat.le_of_eq hlen))
  rw [hhead, hsearch]
  rw [heq] at hl hlen
  cases found with
  | true =>
    have hr := slToFront_reordered hl hlen
    refine ⟨_, hr, ?_⟩
    rcases hfound _ cs hr (hmatch rfl) with hip | ⟨hle, hf⟩
    · exact Or.inl hip
    · exact Or.inr ⟨helig hle, cs, hf⟩
  | false =>
    obtain rfl := hpost rfl
    refine ⟨_, reordered_rotate hl hlen, ?_⟩
    dsimp only
    by_cases hle : hdrLen m.m_data > m.m_len
    · rw [if_pos hle]
      exact Or.inl rfl
    · rw [if_neg hle]
      exact Or.inr ⟨helig (Nat.le_of_not_lt hle), cs, Or.inl rfl⟩

end Slip
