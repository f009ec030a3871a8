import NetBsd.Libc.Vis

/-!
# Encoding and decoding strings

The code of each character, fed to the decoder from its ground state, gives the character back and
leaves the decoder in its ground state. There is one exception: a NUL that is encoded in one digit
keeps the decoder waiting for a second one, and comes out when the next character is not an octal
digit.

## Main definitions

* `emit`: the decoder over the code of one character
* `enc`: the code of a string
* `Silent`: a string from which nothing is decoded

## Main results

* `decode_char`: the code of one character, with anything behind it
* `strvis_strunvis`: when a string comes back from `strvis` and from `strvisx`
* `not_strvisx_strunvis`: `strvisx` encodes the first character over and over
-/

namespace Vis

variable {f : Flags} {c nextc cp : Byte} {fresh : ℕ → Byte} {out rest s src : List Byte}

/-! ## One character -/

/-- The decoder over some characters of which only the last one completes a character. -/
def emit (cp : Byte) (astate : Astate) : List Byte → Option Byte
  | [] => none
  | c :: l =>
    match unvis cp c astate with
    | (cp, astate, .zero) => emit cp astate l
    | (cp, .sGround, .valid) => if l = [] then some cp else none
    | _ => none

theorem loop_of_emit {astate : Astate} (h : emit cp astate s = some c) :
    strunvisLoop fresh (s ++ rest) ⟨out, cp, astate⟩ =
      strunvisLoop fresh rest ⟨out ++ [c], fresh (out.length + 1), .sGround⟩ := by
  induction s generalizing cp astate with
  | nil => cases h
  | cons d s ih =>
    rw [List.cons_append, strunvisLoop, feed]
    rw [emit] at h
    split at h
    · next cp' astate' heq =>
      simp only [heq, Option.bind_some]
      exact ih h
    · next cp' heq =>
      split at h
      · next hs =>
        cases h
        subst hs
        simp only [heq, Option.bind_some, List.nil_append]
        rfl
      · cases h
    · cases h

theorem emit_plain (hc : c ≠ backslash) : emit cp .sGround [c] = some c := by
  simp [emit, unvis, hc]

theorem emit_backslash : emit cp .sGround [backslash, backslash] = some backslash := rfl

theorem emit_ground (l : List Byte) : emit cp .sGround (backslash :: l) = emit 0 .sStart l := rfl

/-- The octal form and the meta form of each character. -/
theorem forms : ∀ c : Byte,
    (emit 0 .sStart (octalDigits c) = some c ∧ 0 ∉ octalDigits c) ∧
    (isgraph c = false → c &&& 0x7f#8 ≠ 0x20#8 → emit 0 .sStart (metaChars c) = some c) ∧
    0 ∉ metaChars c ∧ (metaChars c).length ≤ 3 := by
  decide +kernel

theorem emit_cstyle (h : cstyle c nextc = some s) :
    emit 0 .sStart s = some c ∨ c = 0 ∧ isoctal nextc = false ∧ s = [ch '0'] := by
  by_cases hzero : c = 0
  · subst hzero
    by_cases hnext : isoctal nextc = true
    · rw [show cstyle 0 nextc = some [ch '0', ch '0', ch '0'] by simp [cstyle, hnext]] at h
      cases h
      exact .inl (by decide)
    · rw [show cstyle 0 nextc = some [ch '0'] by simp [cstyle, hnext]] at h
      cases h
      exact .inr ⟨rfl, eq_false_of_ne_true hnext, rfl⟩
  · left
    unfold cstyle at h
    split_ifs at h
    all_goals
      obtain rfl := Option.some.inj h
      subst c
      decide

/-- A character that waits for an octal digit comes out before anything else. -/
theorem loop_pending (hrest : ∀ d ∈ rest.head?, isoctal d = false) :
    strunvisLoop fresh rest ⟨out, cp, .sOctal2⟩ =
      strunvisLoop fresh rest ⟨out ++ [cp], fresh (out.length + 1), .sGround⟩ := by
  cases rest with
  | nil => rfl
  | cons d rest =>
    have hd : isoctal d = false := hrest d rfl
    have hjump : feed fresh d 2 ⟨out, cp, .sOctal2⟩ =
        feed fresh d 1 ⟨out ++ [cp], fresh (out.length + 1), .sGround⟩ := by
      simp only [feed, unvis, hd, Bool.false_eq_true, if_false]
      rfl
    have hground : feed fresh d 1 ⟨out ++ [cp], fresh (out.length + 1), .sGround⟩ =
        feed fresh d 2 ⟨out ++ [cp], fresh (out.length + 1), .sGround⟩ := by
      by_cases hb : d = backslash
      · simp only [feed, unvis, hb, if_true]
      · simp only [feed, unvis, hb, if_false]
    rw [strunvisLoop, strunvisLoop, hjump, hground]

/-- The code of one character, with anything behind it that does not go on with its digits. -/
theorem decode_char (hf : f.noslash = false) (c nextc : Byte)
    (hrest : c = 0 → isoctal nextc = true ∨ ∀ d ∈ rest.head?, isoctal d = false) :
    strunvisLoop fresh (visChars f c nextc ++ rest) ⟨out, cp, .sGround⟩ =
      strunvisLoop fresh rest ⟨out ++ [c], fresh (out.length + 1), .sGround⟩ := by
  unfold visChars
  by_cases hplain : plain f c = true
  · rw [if_pos hplain]
    by_cases hc : c = backslash
    · rw [if_pos ⟨hc, hf⟩, hc]
      exact loop_of_emit emit_backslash
    · rw [if_neg fun h => hc h.1]
      exact loop_of_emit (emit_plain hc)
  rw [if_neg hplain]
  have hgraph : isgraph c = false := by
    by_contra hg
    rw [Bool.not_eq_false] at hg
    simp [plain, hg] at hplain
  split
  · next s hs =>
    have hcs : cstyle c nextc = some s := by
      split at hs
      · exact hs
      · cases hs
    obtain hemit | ⟨rfl, hnext, rfl⟩ := emit_cstyle hcs
    · apply loop_of_emit
      rw [emit_ground, hemit]
    · have hhead := (hrest rfl).resolve_left (by simp [hnext])
      exact loop_pending hhead
  · by_cases hoct : c &&& 0x7f#8 = 0x20#8 ∨ f.octal = true
    · rw [if_pos hoct]
      apply loop_of_emit
      rw [emit_ground, (forms c).1.1]
    · rw [if_neg hoct, hf]
      apply loop_of_emit
      rw [if_neg Bool.false_ne_true]
      exact (emit_ground _).trans ((forms c).2.1 hgraph fun h => hoct (.inl h))

/-- The code of a character that is not an octal digit does not begin with one. -/
theorem head_visChars (hf : f.noslash = false) (hc : isoctal c = false) (nextc : Byte) :
    ∃ d l, visChars f c nextc = d :: l ∧ isoctal d = false := by
  unfold visChars
  split
  · split
    · exact ⟨c, [backslash], rfl, hc⟩
    · exact ⟨c, [], rfl, hc⟩
  · split
    · exact ⟨backslash, _, rfl, by decide⟩
    · split
      · exact ⟨backslash, _, rfl, by decide⟩
      · rw [hf]
        exact ⟨backslash, _, rfl, by decide⟩

/-- The form of `cstyle` is one character, or three zeros. -/
theorem cstyle_cases (h : cstyle c nextc = some s) :
    s = [ch '0', ch '0', ch '0'] ∨ ∃ b, b ≠ 0 ∧ s = [b] := by
  unfold cstyle at h
  split_ifs at h
  all_goals
    obtain rfl := Option.some.inj h
    first
      | exact .inl rfl
      | exact .inr ⟨_, by decide, rfl⟩

theorem length_visChars (f : Flags) (c nextc : Byte) : (visChars f c nextc).length ≤ 4 := by
  have hcs : ∀ s, cstyle c nextc = some s → s.length ≤ 3 := by
    intro s hs
    obtain rfl | ⟨b, -, rfl⟩ := cstyle_cases hs
    · exact Nat.le_refl 3
    · exact Nat.le_add_left 1 2
  have hmeta := (forms c).2.2.2
  unfold visChars
  split
  · split <;> simp
  · split
    · next s hs =>
      split at hs
      · exact Nat.succ_le_succ (hcs s hs)
      · cases hs
    · split
      · exact Nat.le_refl _
      · split
        · exact Nat.le_succ_of_le hmeta
        · exact Nat.succ_le_succ hmeta

/-- No code has a NUL in it. -/
theorem zero_notMem_visChars (hf : f.noslash = false) (c nextc : Byte) :
    0 ∉ visChars f c nextc := by
  have hcs : ∀ s, cstyle c nextc = some s → 0 ∉ s := by
    intro s hs
    obtain rfl | ⟨b, hb, rfl⟩ := cstyle_cases hs
    · decide
    · rw [List.mem_singleton]
      exact hb.symm
  have hcons : ∀ l : List Byte, 0 ∉ l → 0 ∉ backslash :: l := by
    intro l hl hmem
    obtain hzero | hmem := List.mem_cons.mp hmem
    · revert hzero
      decide
    · exact hl hmem
  unfold visChars
  split
  · next hplain =>
    have hc : 0 ≠ c := by
      rintro rfl
      simp [plain, isgraph] at hplain
    have hb : (0 : Byte) ≠ backslash := by decide
    split
    · rw [List.mem_cons, List.mem_singleton, not_or]
      exact ⟨hc, hb⟩
    · rw [List.mem_singleton]
      exact hc
  · split
    · next s hs =>
      split at hs
      · exact hcons _ (hcs s hs)
      · cases hs
    · split
      · exact hcons _ (forms c).1.2
      · rw [hf]
        exact hcons _ (forms c).2.2.1

/-! ## Strings -/

/-- The code of a string. -/
def enc (f : Flags) : List Byte → List Byte
  | [] => []
  | c :: src => visChars f c (src.headD 0) ++ enc f src

theorem length_enc (f : Flags) (src : List Byte) : (enc f src).length ≤ 4 * src.length := by
  induction src with
  | nil => exact Nat.le_refl _
  | cons c src ih =>
    have hc := length_visChars f c (src.headD 0)
    rw [enc, List.length_append, List.length_cons]
    omega

theorem zero_notMem_enc (hf : f.noslash = false) (src : List Byte) : 0 ∉ enc f src := by
  induction src with
  | nil => exact List.not_mem_nil
  | cons c src ih =>
    rw [enc, List.mem_append, not_or]
    exact ⟨zero_notMem_visChars hf c _, ih⟩

/-- The code of a string decodes to the string. -/
theorem decode_enc (hf : f.noslash = false) (src : List Byte) :
    strunvisLoop fresh (enc f src) ⟨out, cp, .sGround⟩ = some (out ++ src) := by
  induction src generalizing out cp with
  | nil =>
    rw [List.append_nil]
    rfl
  | cons c src ih =>
    have hnext : c = 0 → isoctal (src.headD 0) = true ∨
        ∀ d ∈ (enc f src).head?, isoctal d = false := by
      intro _
      by_cases ho : isoctal (src.headD 0) = true
      · exact .inl ho
      right
      cases src with
      | nil => nofun
      | cons c' src =>
        obtain ⟨d, l, hd, hoct⟩ := head_visChars (c := c') hf (eq_false_of_ne_true ho) (src.headD 0)
        rw [enc, hd]
        intro e he
        cases he
        exact hoct
    rw [enc, decode_char hf c _ hnext, ih, List.append_assoc]
    rfl

theorem puts_spec (m : ByteMem) (dst : ℕ) (l : List Byte) :
    ∃ m', puts m dst l = (m', dst + l.length) ∧ m'.Holds dst l ∧ ∀ a, a < dst → m' a = m a := by
  induction l generalizing m dst with
  | nil => exact ⟨m, rfl, nofun, fun _ _ => rfl⟩
  | cons c l ih =>
    obtain ⟨m', hputs, hholds, hlow⟩ := ih (m.put8 dst c) (dst + 1)
    refine ⟨m', ?_, ?_, ?_⟩
    · rw [puts, hputs, List.length_cons, Nat.add_right_comm, Nat.add_assoc]
    · intro j hj
      cases j with
      | zero =>
        rw [Nat.add_zero, hlow dst (Nat.lt_succ_self dst), ByteMem.put8_same]
        rfl
      | succ j =>
        have hj' : j < l.length := Nat.lt_of_succ_lt_succ hj
        have hget := hholds j hj'
        rw [Nat.add_right_comm, Nat.add_assoc] at hget
        exact hget
    · intro a ha
      rw [hlow a (Nat.lt_succ_of_lt ha), ByteMem.put8_of_ne (by omega)]

theorem vis_spec (m : ByteMem) (dst : ℕ) (f : Flags) (c nextc : Byte) :
    ∃ m', vis m dst f c nextc = (m', dst + (visChars f c nextc).length) ∧
      m'.Holds dst (visChars f c nextc) ∧ m' (dst + (visChars f c nextc).length) = 0 ∧
      ∀ a, a < dst → m' a = m a := by
  obtain ⟨m', hputs, hholds, hlow⟩ := puts_spec m dst (visChars f c nextc)
  refine ⟨m'.put8 (dst + (visChars f c nextc).length) 0, ?_, ?_, ByteMem.put8_same .., ?_⟩
  · rw [vis, hputs]
  · intro j hj
    rw [ByteMem.put8_of_ne (by omega)]
    exact hholds j hj
  · intro a ha
    rw [ByteMem.put8_of_ne (by omega)]
    exact hlow a ha

theorem strvis_spec (m : ByteMem) (dst : ℕ) (f : Flags) (src : List Byte) :
    ∃ m', strvis m dst f src = (m', dst + (enc f src).length) ∧ m'.Holds dst (enc f src) ∧
      (src ≠ [] → m' (dst + (enc f src).length) = 0) ∧ ∀ a, a < dst → m' a = m a := by
  induction src generalizing m dst with
  | nil => exact ⟨m, rfl, nofun, fun h => absurd rfl h, fun _ _ => rfl⟩
  | cons c src ih =>
    obtain ⟨m₁, hvis, hholds, hzero, hlow⟩ := vis_spec m dst f c (src.headD 0)
    obtain ⟨m₂, hstr, hholds', hzero', hlow'⟩ :=
      ih m₁ (dst + (visChars f c (src.headD 0)).length)
    refine ⟨m₂, ?_, ?_, ?_, ?_⟩
    · rw [strvis, hvis]
      simp only [hstr, enc, List.length_append, Nat.add_assoc]
    · rw [enc, ByteMem.holds_append]
      refine ⟨?_, hholds'⟩
      intro j hj
      rw [hlow' _ (by omega)]
      exact hholds j hj
    · intro _
      rw [enc, List.length_append, ← Nat.add_assoc]
      cases src with
      | nil =>
        cases hstr
        exact hzero
      | cons c' src => exact hzero' nofun
    · intro a ha
      rw [hlow' a (by omega), hlow a ha]

/-- What `strvisx` writes for a string that begins with this character. -/
def encx (f : Flags) (c nextc : Byte) : ℕ → List Byte
  | 0 => visChars f c 0
  | n + 1 => visChars f c nextc ++ encx f c nextc n

theorem length_encx (f : Flags) (c nextc : Byte) (n : ℕ) :
    (encx f c nextc n).length ≤ 4 * (n + 1) := by
  induction n with
  | zero => exact length_visChars f c 0
  | succ n ih =>
    have hc := length_visChars f c nextc
    rw [encx, List.length_append]
    omega

theorem zero_notMem_encx (hf : f.noslash = false) (c nextc : Byte) (n : ℕ) :
    0 ∉ encx f c nextc n := by
  induction n with
  | zero => exact zero_notMem_visChars hf c 0
  | succ n ih =>
    rw [encx, List.mem_append, not_or]
    exact ⟨zero_notMem_visChars hf c _, ih⟩

theorem head_encx (hf : f.noslash = false) (hc : isoctal c = false) (nextc : Byte) (n : ℕ) :
    ∀ d ∈ (encx f c nextc n).head?, isoctal d = false := by
  cases n with
  | zero =>
    obtain ⟨d, l, hd, hoct⟩ := head_visChars hf hc 0
    rw [encx, hd]
    intro e he
    cases he
    exact hoct
  | succ n =>
    obtain ⟨d, l, hd, hoct⟩ := head_visChars hf hc nextc
    rw [encx, hd]
    intro e he
    cases he
    exact hoct

/-- It decodes to the first character, as often as there are characters. -/
theorem decode_encx (hf : f.noslash = false) (c nextc : Byte) (n : ℕ) :
    strunvisLoop fresh (encx f c nextc n) ⟨out, cp, .sGround⟩ =
      some (out ++ List.replicate (n + 1) c) := by
  induction n generalizing out cp with
  | zero =>
    have hlast : strunvisLoop fresh (visChars f c 0 ++ []) ⟨out, cp, .sGround⟩ =
        strunvisLoop fresh [] ⟨out ++ [c], fresh (out.length + 1), .sGround⟩ :=
      decode_char hf c 0 fun _ => .inr nofun
    rw [List.append_nil] at hlast
    rw [encx, hlast]
    rfl
  | succ n ih =>
    rw [encx, decode_char hf c nextc, ih, List.append_assoc]
    · rfl
    · rintro rfl
      exact .inr (head_encx hf (by decide) nextc n)

theorem strvisxLoop_spec (m : ByteMem) (dst : ℕ) (f : Flags) (c nextc : Byte) (n : ℕ) :
    ∃ m' m'' dst', strvisxLoop f c nextc n m dst = (m', dst') ∧
      vis m' dst' f c 0 = (m'', dst + (encx f c nextc n).length) ∧
      m''.Holds dst (encx f c nextc n) ∧ m'' (dst + (encx f c nextc n).length) = 0 ∧
      ∀ a, a < dst → m'' a = m a := by
  induction n generalizing m dst with
  | zero =>
    obtain ⟨m', hvis, hspec⟩ := vis_spec m dst f c 0
    exact ⟨m, m', dst, rfl, hvis, hspec⟩
  | succ n ih =>
    obtain ⟨m₁, hvis, hholds, hzero, hlow⟩ := vis_spec m dst f c nextc
    obtain ⟨m', m'', dst', hloop, hlast, hholds', hzero', hlow'⟩ :=
      ih m₁ (dst + (visChars f c nextc).length)
    refine ⟨m', m'', dst', ?_, ?_, ?_, ?_, ?_⟩
    · rw [strvisxLoop, hvis]
      exact hloop
    · rw [hlast, encx, List.length_append, Nat.add_assoc]
    · rw [encx, ByteMem.holds_append]
      refine ⟨?_, hholds'⟩
      intro j hj
      rw [hlow' _ (by omega)]
      exact hholds j hj
    · rw [encx, List.length_append, ← Nat.add_assoc, hzero']
    · intro a ha
      rw [hlow' a (by omega), hlow a ha]

/-! ## Strings that decode to nothing -/

/-- Hidden newlines and hidden markers, and perhaps the beginning of a code. -/
def Silent : List Byte → Prop
  | [] => True
  | [a] => a = backslash
  | a :: b :: l => a = backslash ∧ ((b = ch '$' ∨ b = 0x0a#8) ∧ Silent l ∨ b = ch '^' ∧ l = [] ∨
      b = ch 'M' ∧ (l = [] ∨ l = [ch '-'] ∨ l = [ch '^']))

theorem length_le_of_feed {st st' : State} {n : ℕ} (h : feed fresh c n st = some st') :
    st.out.length ≤ st'.out.length := by
  induction n generalizing st with
  | zero => cases h
  | succ n ih =>
    rw [feed] at h
    simp only at h
    split at h
    · cases h
      rw [State.next, List.length_append]
      exact Nat.le_add_right ..
    · have hle := ih h
      rw [State.next, List.length_append] at hle
      exact Nat.le_of_add_right_le hle
    · cases h
      exact Nat.le_refl _
    · cases h
      exact Nat.le_refl _
    · cases h

/-- Nothing that was decoded is taken back. -/
theorem length_le_of_loop {st : State} {r : List Byte} (h : strunvisLoop fresh s st = some r) :
    st.out.length ≤ r.length := by
  induction s generalizing st with
  | nil =>
    cases h
    unfold finish
    split
    · rw [List.length_append]
      exact Nat.le_add_right ..
    · exact Nat.le_refl _
  | cons c s ih =>
    rw [strunvisLoop] at h
    obtain ⟨st', hfeed, h⟩ := Option.bind_eq_some_iff.mp h
    exact Nat.le_trans (length_le_of_feed hfeed) (ih h)

theorem loop_ne_nil {st : State} (h : st.out ≠ []) : strunvisLoop fresh s st ≠ some [] := by
  intro hloop
  exact h (List.length_eq_zero_iff.mp (Nat.le_zero.mp (length_le_of_loop hloop)))

/-- A character that was completed is never lost. -/
theorem loop_emitted (st : State) (astate : Astate) (l : List Byte)
    (h : unvis st.cp c astate = (cp, .sGround, .valid) ∨
      unvis st.cp c astate = (cp, .sGround, .validpush)) :
    strunvisLoop fresh (c :: l) { st with astate := astate } ≠ some [] := by
  rw [strunvisLoop]
  intro hloop
  obtain ⟨st', hfeed, hloop⟩ := Option.bind_eq_some_iff.mp hloop
  have hne : ∀ s : State, (s.next fresh).out ≠ [] := fun s => by simp [State.next]
  obtain h | h := h
  · simp only [feed, h] at hfeed
    cases hfeed
    exact loop_ne_nil (hne _) hloop
  · rw [feed] at hfeed
    simp only [h] at hfeed
    have hle := length_le_of_feed hfeed
    apply loop_ne_nil ?_ hloop
    intro hnil
    rw [hnil] at hle
    exact hne _ (List.length_eq_zero_iff.mp (Nat.le_zero.mp hle))

theorem loop_octal3 (l : List Byte) : strunvisLoop fresh l ⟨[], cp, .sOctal3⟩ ≠ some [] := by
  cases l with
  | nil => exact fun h => nomatch h
  | cons d l =>
    by_cases hd : isoctal d = true
    · exact loop_emitted ⟨[], cp, .sOctal3⟩ .sOctal3 l (.inl (if_pos hd))
    · exact loop_emitted ⟨[], cp, .sOctal3⟩ .sOctal3 l (.inr (if_neg hd))

theorem loop_octal2 (l : List Byte) : strunvisLoop fresh l ⟨[], cp, .sOctal2⟩ ≠ some [] := by
  cases l with
  | nil => exact fun h => nomatch h
  | cons d l =>
    by_cases hd : isoctal d = true
    · rw [strunvisLoop]
      simp only [feed, unvis, hd, if_true, Option.bind_some]
      exact loop_octal3 l
    · exact loop_emitted ⟨[], cp, .sOctal2⟩ .sOctal2 l (.inr (if_neg hd))

theorem loop_ctrl (l : List Byte) : strunvisLoop fresh l ⟨[], cp, .sCtrl⟩ = some [] ↔ l = [] := by
  cases l with
  | nil => exact iff_of_true rfl rfl
  | cons d l =>
    exact iff_of_false (loop_emitted ⟨[], cp, .sCtrl⟩ .sCtrl l (.inl rfl)) nofun

theorem loop_meta (l : List Byte) : strunvisLoop fresh l ⟨[], cp, .sMeta⟩ = some [] ↔
    l = [] ∨ l = [ch '-'] ∨ l = [ch '^'] := by
  cases l with
  | nil => exact iff_of_true rfl (.inl rfl)
  | cons d l =>
    rw [strunvisLoop]
    by_cases hminus : d = ch '-'
    · subst hminus
      have hfeed : feed fresh (ch '-') 2 ⟨[], cp, .sMeta⟩ = some ⟨[], cp, .sMeta1⟩ := rfl
      rw [hfeed, Option.bind_some]
      cases l with
      | nil => exact iff_of_true rfl (.inr (.inl rfl))
      | cons e l =>
        refine iff_of_false (loop_emitted ⟨[], cp, .sMeta1⟩ .sMeta1 l (.inl rfl)) ?_
        simp
    · by_cases hctrl : d = ch '^'
      · subst hctrl
        have hfeed : feed fresh (ch '^') 2 ⟨[], cp, .sMeta⟩ = some ⟨[], cp, .sCtrl⟩ := rfl
        have hne : ch '^' ≠ ch '-' := by decide
        rw [hfeed, Option.bind_some, loop_ctrl]
        simp [hne]
      · have hfeed : feed fresh d 2 ⟨[], cp, .sMeta⟩ = none := by
          simp only [feed, unvis, hminus, hctrl, if_false]
        rw [hfeed]
        simp [hminus, hctrl]

theorem start_cases : ∀ b : Byte,
    (b = ch '$' ∨ b = 0x0a#8) ∧ unvisStart b = (none, .sGround, .nochar) ∨
    b = ch '^' ∧ unvisStart b = (none, .sCtrl, .zero) ∨
    b = ch 'M' ∧ unvisStart b = (some 0x80#8, .sMeta, .zero) ∨
    (b ≠ ch '$' ∧ b ≠ 0x0a#8 ∧ b ≠ ch '^' ∧ b ≠ ch 'M') ∧
      ((unvisStart b).2 = (.sGround, .valid) ∨ (unvisStart b).2 = (.sOctal2, .zero) ∨
        (unvisStart b).2 = (.sGround, .synbad)) := by
  decide +kernel

theorem silent_iff (s : List Byte) :
    strunvisLoop fresh s ⟨[], cp, .sGround⟩ = some [] ↔ Silent s := by
  induction s using Silent.induct generalizing cp with
  | case1 => exact iff_of_true rfl trivial
  | case2 a =>
    rw [Silent]
    by_cases ha : a = backslash
    · subst ha
      exact iff_of_true rfl rfl
    · exact iff_of_false
        (loop_emitted ⟨[], cp, .sGround⟩ .sGround [] (.inl (if_neg ha))) ha
  | case3 a b l ih =>
    rw [Silent]
    by_cases ha : a = backslash
    · subst ha
      have hstart : strunvisLoop fresh (backslash :: b :: l) ⟨[], cp, .sGround⟩ =
          strunvisLoop fresh (b :: l) ⟨[], 0, .sStart⟩ := rfl
      rw [hstart]
      obtain ⟨hb, hu⟩ | ⟨rfl, hu⟩ | ⟨rfl, hu⟩ | ⟨⟨h₁, h₂, h₃, h₄⟩, hu⟩ := start_cases b
      · have hfeed : feed fresh b 2 ⟨[], 0, .sStart⟩ = some ⟨[], 0, .sGround⟩ := by
          simp only [feed, unvis, hu]
          rfl
        have hne : b ≠ ch '^' ∧ b ≠ ch 'M' := by
          obtain rfl | rfl := hb
          · decide
          · decide
        rw [strunvisLoop, hfeed, Option.bind_some, ih]
        simp [hb, hne]
      · have hne : ch '^' ≠ ch '$' ∧ ch '^' ≠ 0x0a#8 ∧ ch '^' ≠ ch 'M' := by decide
        rw [strunvisLoop]
        simp only [feed, unvis, hu, Option.bind_some]
        rw [loop_ctrl]
        simp [hne]
      · have hne : ch 'M' ≠ ch '$' ∧ ch 'M' ≠ 0x0a#8 ∧ ch 'M' ≠ ch '^' := by decide
        rw [strunvisLoop]
        simp only [feed, unvis, hu, Option.bind_some]
        rw [loop_meta]
        simp [hne]
      · refine iff_of_false ?_ (by simp [h₁, h₂, h₃, h₄])
        obtain hu | hu | hu := hu
        · exact loop_emitted ⟨[], 0, .sStart⟩ .sStart l
            (.inl (Prod.ext rfl hu : unvis 0 b .sStart = ((unvisStart b).1.getD 0, .sGround, .valid)))
        · rw [strunvisLoop]
          have hfeed : feed fresh b 2 ⟨[], 0, .sStart⟩ =
              some ⟨[], (unvisStart b).1.getD 0, .sOctal2⟩ := by
            simp only [feed, unvis, hu]
          rw [hfeed]
          exact loop_octal2 l
        · rw [strunvisLoop]
          have hfeed : feed fresh b 2 ⟨[], 0, .sStart⟩ = none := by
            simp only [feed, unvis, hu]
          rw [hfeed]
          nofun
    · refine iff_of_false
        (loop_emitted ⟨[], cp, .sGround⟩ .sGround _ (.inl (if_neg ha))) fun h => ha h.1

/-! ## Round trips -/

/-- A string ends at the first NUL. -/
theorem IsStr.unique {m : ByteMem} {a : ℕ} {s t : List Byte} (hs : IsStr m a s) (ht : IsStr m a t) :
    s = t := by
  have hle : ∀ {s t : List Byte}, IsStr m a s → IsStr m a t → t.length ≤ s.length := by
    intro s t hs ht
    by_contra hlt
    have hget := ht.1 s.length (by omega)
    rw [hs.2.1] at hget
    exact ht.2.2 (hget ▸ List.getElem_mem _)
  refine List.ext_getElem (Nat.le_antisymm (hle ht hs) (hle hs ht)) ?_
  intro j h₁ h₂
  exact (hs.1 j h₁).symm.trans (ht.1 j h₂)

/-- What was written at `dst` decodes to `src`, and is not longer than it may be. -/
def RoundTrip (fresh : ℕ → Byte) (dst : ℕ) (src : List Byte) (r : ByteMem × ℕ) : Prop :=
  (∃ s, IsStr r.1 dst s ∧ strunvis fresh s = some src) ∧ r.2 ≤ dst + 4 * src.length

variable (fresh) in
/-- With no characters nothing is written, not even the NUL. -/
theorem roundTrip_nil (m : ByteMem) (dst : ℕ) :
    RoundTrip fresh dst [] (m, dst) ↔ ∃ s, IsStr m dst s ∧ Silent s := by
  constructor
  · rintro ⟨⟨s, hs, hdec⟩, -⟩
    exact ⟨s, hs, (silent_iff s).mp hdec⟩
  · rintro ⟨s, hs, hsil⟩
    exact ⟨⟨s, hs, (silent_iff s).mpr hsil⟩, Nat.le_refl _⟩

theorem strvisx_spec (m : ByteMem) (dst : ℕ) (hf : f.noslash = false) (c : Byte) (src : List Byte) :
    ∃ m', strvisx m dst f (c :: src) = (m', dst + (encx f c (src.headD 0) src.length).length) ∧
      IsStr m' dst (encx f c (src.headD 0) src.length) := by
  obtain ⟨m₁, m₂, dst', hloop, hvis, hholds, hzero, -⟩ :=
    strvisxLoop_spec m dst f c (src.headD 0) src.length
  refine ⟨m₂, ?_, hholds, hzero, zero_notMem_encx hf c _ _⟩
  rw [strvisx]
  simp only [hloop, hvis]

/-- A string comes back from `strvis` unless it is empty and what stood at `dst` decodes to
something; it comes back from `strvisx` if its characters are all the same as well. -/
theorem strvis_strunvis (f : Flags) (hf : f.noslash = false) (m : ByteMem) (dst : ℕ)
    (fresh : ℕ → Byte) (src : List Byte) :
    (0 ∉ src → (RoundTrip fresh dst src (strvis m dst f src) ↔
      (src = [] → ∃ s, IsStr m dst s ∧ Silent s))) ∧
    (RoundTrip fresh dst src (strvisx m dst f src) ↔
      (src = [] → ∃ s, IsStr m dst s ∧ Silent s) ∧ ∀ c ∈ src, ∀ d ∈ src, c = d) := by
  cases src with
  | nil =>
    have hnil := roundTrip_nil fresh m dst
    refine ⟨fun _ => hnil.trans ⟨fun h _ => h, fun h => h rfl⟩, ?_⟩
    exact hnil.trans ⟨fun h => ⟨fun _ => h, nofun⟩, fun h => h.1 rfl⟩
  | cons c src =>
    refine ⟨fun _ => iff_of_true ?_ nofun, ?_⟩
    · obtain ⟨m', hstr, hholds, hzero, -⟩ := strvis_spec m dst f (c :: src)
      rw [hstr]
      refine ⟨⟨enc f (c :: src), ⟨hholds, hzero nofun, zero_notMem_enc hf _⟩, decode_enc hf _⟩, ?_⟩
      exact Nat.add_le_add_left (length_enc f _) dst
    · obtain ⟨m', hstr, hstring⟩ := strvisx_spec m dst hf c src
      have hdec : strunvis fresh (encx f c (src.headD 0) src.length) =
          some (List.replicate (src.length + 1) c) := decode_encx hf c _ _
      rw [hstr]
      constructor
      · rintro ⟨⟨s, hs, hsrc⟩, -⟩
        rw [hs.unique hstring, hdec] at hsrc
        have heq : List.replicate (src.length + 1) c = c :: src := Option.some.inj hsrc
        refine ⟨nofun, ?_⟩
        intro d hd e he
        rw [← heq] at hd he
        rw [List.eq_of_mem_replicate hd, List.eq_of_mem_replicate he]
      · rintro ⟨-, hall⟩
        have heq : c :: src = List.replicate (src.length + 1) c :=
          List.eq_replicate_iff.mpr ⟨rfl, fun d hd => hall d hd c List.mem_cons_self⟩
        refine ⟨⟨_, hstring, ?_⟩, ?_⟩
        · rw [hdec, ← heq]
        · have hlen := length_encx f c (src.headD 0) src.length
          rw [List.length_cons]
          exact Nat.add_le_add_left hlen dst

/-- The flags of a call with `VIS_CSTYLE`. -/
def cstyleFlags : Flags := ⟨false, true, false, false, false, false, false⟩

theorem strvis_strunvis_tab : RoundTrip (fun _ => 0) 0 [0x09#8, 0x5c#8, 0x80#8]
    (strvis (fun _ => 0) 0 cstyleFlags [0x09#8, 0x5c#8, 0x80#8]) :=
  ((strvis_strunvis cstyleFlags rfl (fun _ => 0) 0 (fun _ => 0) [0x09#8, 0x5c#8, 0x80#8]).1
    (by decide)).mpr nofun

/-- `strvisx` of `ab` is `aa`. -/
theorem not_strvisx_strunvis : ¬ ∀ (f : Flags) (m : ByteMem) (dst : ℕ) (fresh : ℕ → Byte)
    (src : List Byte), f.noslash = false → RoundTrip fresh dst src (strvisx m dst f src) := by
  intro hall
  obtain ⟨⟨s, hs, hsrc⟩, -⟩ := hall cstyleFlags (fun _ => 0) 0 (fun _ => 0) [ch 'a', ch 'b'] rfl
  obtain ⟨m', hstr, hstring⟩ := strvisx_spec (fun _ => 0) 0 (f := cstyleFlags) rfl (ch 'a') [ch 'b']
  rw [hstr] at hs
  rw [hs.unique hstring] at hsrc
  revert hsrc
  decide

end Vis
