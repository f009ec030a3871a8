import Mathlib
import NetBsd.Bin.Compress

/-!
# Chains of prefixes

The string of a code is found by going down its prefixes, so that an uncompression ends only where
this does. Where every code of the file is in the table when it is read, or is the one entered
next, every prefix is below its entry. The routine does not look for such codes, and a code from
beyond the table can make an entry its own prefix.

## Main definitions

* `Compress.Descends p tab bound`: below `bound`, prefixes are below their entries
* `Compress.Inv`: what a turn of `decompress` preserves

## Main results

* `Compress.follow_spec`: where prefixes are below their entries, a chain ends, and in time
* `Compress.turn_spec`: a known code keeps prefixes below their entries
* `Compress.decompress_contained`: a file of known codes is uncompressed within the tables
* `Compress.decompress_corrupt`: another file is not
-/

namespace Compress

variable {p : Params}

/-- Entries that a code can stand for: with block compression `CLEAR` is not one. -/
def Params.Used (p : Params) (e : ℕ) : Prop := p.block_compress = true → e ≠ CLEAR

theorem Params.used_of_lt {e : ℕ} (h : e < 256) : p.Used e := fun _ => Nat.ne_of_lt h

/-- Below `bound`, prefixes are below their entries. -/
def Descends (p : Params) (tab : Tables) (bound : ℕ) : Prop :=
  ∀ e, 256 ≤ e → e < bound → p.Used e →
    (tab.tab_prefix e).toNat < e ∧ p.Used (tab.tab_prefix e).toNat

/-! ## Following a chain -/

theorem push_ok {c : Byte} {stack : List Byte} (h : stack.length < stackRoom) :
    push c stack = .ok (c :: stack) := if_pos h

theorem Tables.suffixOf_ok {tab : Tables} {code : ℕ} (h : code < 2 ^ BITS) :
    tab.suffixOf code = .ok (tab.tab_suffix code) := if_pos h

theorem Tables.prefixOf_ok {tab : Tables} {code : ℕ} (h : code < 2 ^ BITS) :
    tab.prefixOf code = .ok (tab.tab_prefix code).toNat := if_pos h

theorem lastChar_ok {tab : Tables} {code : ℕ} {stack : List Byte} (hcode : code < 2 ^ BITS)
    (hroom : stack.length < stackRoom) :
    lastChar tab code stack = .ok (tab.tab_suffix code, tab.tab_suffix code :: stack) := by
  unfold lastChar
  rw [Tables.suffixOf_ok hcode, Fault.ok_bind, push_ok hroom]
  rfl

/-- Where prefixes are below their entries, a chain ends: it takes no more steps than there are
entries down to the single characters. -/
theorem follow_spec {tab : Tables} {bound : ℕ} (hd : Descends p tab bound)
    (hbound : bound ≤ 2 ^ BITS) (steps code : ℕ) (stack : List Byte) (hcode : code < bound)
    (hused : p.Used code) (hsteps : code < 256 + steps)
    (hroom : stack.length + steps < stackRoom) :
    ∃ x, follow tab steps code stack = .ok x := by
  induction steps generalizing code stack with
  | zero =>
    have hlow : ¬256 ≤ code := Nat.not_le.2 hsteps
    rw [follow, if_neg hlow]
    exact ⟨_, lastChar_ok (Nat.lt_of_lt_of_le hcode hbound) hroom⟩
  | succ steps ih =>
    have hfits : code < 2 ^ BITS := Nat.lt_of_lt_of_le hcode hbound
    rw [follow]
    by_cases hlow : 256 ≤ code
    · -- one step down, and the rest of the chain has one step less
      obtain ⟨hlt, hused'⟩ := hd code hlow hcode hused
      rw [if_pos hlow, Tables.suffixOf_ok hfits, Fault.ok_bind,
        push_ok (by omega), Fault.ok_bind, Tables.prefixOf_ok hfits, Fault.ok_bind]
      apply ih _ _ (Nat.lt_trans hlt hcode) hused' (by omega)
      rw [List.length_cons]
      omega
    · rw [if_neg hlow]
      exact ⟨_, lastChar_ok hfits (by omega)⟩

/-- An entry that is its own prefix has an endless chain. -/
theorem follow_cycle {tab : Tables} {code : ℕ} (hcode : 256 ≤ code)
    (hself : (tab.tab_prefix code).toNat = code) (steps : ℕ) (stack : List Byte)
    (x : Byte × List Byte) : follow tab steps code stack ≠ .ok x := by
  induction steps generalizing stack with
  | zero =>
    rw [follow, if_pos hcode]
    nofun
  | succ steps ih =>
    rw [follow, if_pos hcode]
    intro h
    obtain ⟨c, -, h⟩ := Fault.bind_eq_ok.1 h
    obtain ⟨stack', -, h⟩ := Fault.bind_eq_ok.1 h
    obtain ⟨code', hpre, h⟩ := Fault.bind_eq_ok.1 h
    unfold Tables.prefixOf at hpre
    split at hpre
    · obtain rfl := Except.ok.inj hpre
      rw [hself] at h
      exact ih _ h
    · nomatch hpre

/-! ## One code -/

/-- What a turn of `decompress` preserves. -/
structure Inv (p : Params) (d : Decomp) : Prop where
  bits : 9 ≤ d.reader.n_bits
  full : d.reader.free_ent ≤ p.maxmaxcode
  chars : 256 ≤ d.reader.free_ent
  links : Descends p d.tab d.reader.free_ent
  old_lt : d.oldcode < d.reader.free_ent
  old_used : p.Used d.oldcode

/-- The new entry has the last code as its prefix. -/
theorem Descends.enter {tab : Tables} {free_ent oldcode : ℕ} (h : Descends p tab free_ent)
    (hfits : free_ent < 2 ^ BITS)
    (hold : p.Used free_ent → oldcode < free_ent ∧ p.Used oldcode) (finchar : ℕ) :
    ∃ tab', tab.enter free_ent oldcode finchar = .ok tab' ∧
      Descends p tab' (free_ent + 1) := by
  refine ⟨_, if_pos hfits, ?_⟩
  intro e hlow hlt hused
  by_cases he : e = free_ent
  · subst he
    obtain ⟨hlt', hused'⟩ := hold hused
    have hval : (BitVec.ofNat 16 oldcode).toNat = oldcode := by
      rw [BitVec.toNat_ofNat]
      exact Nat.mod_eq_of_lt (Nat.lt_trans hlt' hfits)
    simp only [if_true, hval]
    exact ⟨hlt', hused'⟩
  · simp only [if_neg he]
    exact h e hlow (by omega) hused

/-- There is an entry more, or the table is full. -/
theorem newEntry_spec {tab : Tables} {free_ent oldcode : ℕ} (h : Descends p tab free_ent)
    (hmax : p.maxmaxcode ≤ 2 ^ BITS)
    (hold : p.Used free_ent → oldcode < free_ent ∧ p.Used oldcode) (finchar : Byte) :
    ∃ tab' bound, newEntry p tab free_ent oldcode finchar = .ok (tab', bound) ∧
      Descends p tab' bound ∧
      bound = if free_ent < p.maxmaxcode then free_ent + 1 else free_ent := by
  unfold newEntry
  by_cases hroom : free_ent < p.maxmaxcode
  · obtain ⟨tab', htab, hd⟩ :=
      h.enter (Nat.lt_of_lt_of_le hroom hmax) hold finchar.toNat
    rw [if_pos hroom, htab]
    exact ⟨tab', _, rfl, hd, (if_pos hroom).symm⟩
  · rw [if_neg hroom]
    exact ⟨tab, _, rfl, h, (if_neg hroom).symm⟩

/-- The string of a code that is in the table, or is entered next. -/
theorem string_spec {d : Decomp} {tab : Tables} {free_ent code : ℕ}
    (hd : Descends p tab free_ent) (hmax : p.maxmaxcode ≤ 2 ^ BITS)
    (hfull : free_ent ≤ p.maxmaxcode) (hused : p.Used code)
    (hold : free_ent ≤ code → d.oldcode < free_ent ∧ p.Used d.oldcode) :
    ∃ x, string p.maxmaxcode d tab free_ent code = .ok x := by
  have hbound : free_ent ≤ 2 ^ BITS := Nat.le_trans hfull hmax
  -- the longest chain, after the one character that may come first
  have hroom : 1 + p.maxmaxcode < stackRoom :=
    Nat.lt_of_le_of_lt (Nat.add_le_add_left hmax 1) (by decide)
  unfold string
  split
  · rename_i hcode
    obtain ⟨hlt, hused'⟩ := hold hcode
    rw [push_ok (by rw [List.length_nil]; omega), Fault.ok_bind]
    exact follow_spec hd hbound _ _ _ hlt hused' (by omega) hroom
  · rename_i hcode
    refine follow_spec hd hbound _ _ _ (Nat.not_le.1 hcode) hused (by omega) ?_
    rw [List.length_nil]
    omega

/-- A known code has a string, and keeps prefixes below their entries. -/
theorem turn_spec (hmin : 9 ≤ p.maxbits) (hmax : p.maxbits ≤ 16) {d : Decomp} (h : Inv p d)
    {cleared : Bool} {code : ℕ} {r : Reader}
    (hread : nextCode p d.reader = (some (cleared, code), r))
    (hknown : Read.Known p ⟨cleared, code, r.free_ent⟩) :
    ∃ d', turn p p.maxmaxcode d cleared code r = .ok d' ∧ Inv p d' ∧ d'.reader = r.grow p := by
  have hhuge : p.maxmaxcode ≤ 2 ^ BITS := Nat.pow_le_pow_right (by decide) hmax
  have hbig : 2 ^ 9 ≤ p.maxmaxcode := Nat.pow_le_pow_right (by decide) hmin
  obtain ⟨-, hbits, hclr, hord⟩ := nextCode_left h.bits hread
  -- what is known of the table, the code and the last code in both cases
  obtain ⟨tab, htab, hd, hfull, hchars, hused, hold, hstr, hnext⟩ :
      ∃ tab, (if cleared then d.tab.clear else d.tab) = tab ∧ Descends p tab r.free_ent ∧
        r.free_ent ≤ p.maxmaxcode ∧ 256 ≤ r.free_ent ∧ p.Used code ∧
        (p.Used r.free_ent → d.oldcode < r.free_ent ∧ p.Used d.oldcode) ∧
        (r.free_ent ≤ code → d.oldcode < r.free_ent ∧ p.Used d.oldcode) ∧
        (code < r.free_ent ∨ code = r.free_ent ∧ r.free_ent < p.maxmaxcode) := by
    cases cleared with
    | true =>
      obtain ⟨hblock, hfree⟩ := hclr rfl
      have hcode : code < 256 := by simpa [Read.Known] using hknown
      have hfree' : r.free_ent = 256 := hfree
      rw [hfree']
      refine ⟨_, rfl, ?_, by omega, Nat.le_refl _, Params.used_of_lt hcode, ?_, by omega,
        Or.inl hcode⟩
      · intro e hlow hlt
        omega
      · intro hused
        exact absurd rfl (hused hblock)
    | false =>
      obtain ⟨hfree, hused⟩ := hord rfl
      have hcode : code < r.free_ent ∨ code = r.free_ent ∧ r.free_ent < p.maxmaxcode := by
        simpa [Read.Known] using hknown
      rw [hfree] at hcode ⊢
      exact ⟨_, rfl, h.links, h.full, h.chars, hused, fun _ => ⟨h.old_lt, h.old_used⟩,
        fun _ => ⟨h.old_lt, h.old_used⟩, hcode⟩
  obtain ⟨⟨finchar, stack⟩, hstring⟩ := string_spec (d := d) hd hhuge hfull hused hstr
  obtain ⟨tab', bound, hnew, hd', hbound⟩ := newEntry_spec hd hhuge hold finchar
  refine ⟨{ reader := { r with free_ent := bound }, tab := tab', finchar := finchar.toNat,
            oldcode := code, out := stack.foldl Sink.put d.out }, ?_, ?_, ?_⟩
  · unfold turn
    simp only [htab, hstring, hnew, Fault.ok_bind]
    rfl
  · have hcases : r.free_ent ≤ bound ∧ bound ≤ p.maxmaxcode ∧ code < bound := by
      rw [hbound]
      split <;> omega
    exact ⟨hbits, hcases.2.1, Nat.le_trans hchars hcases.1, hd', hcases.2.2, hused⟩
  · unfold Reader.grow
    rw [hbound]
    split <;> rfl

/-! ## All codes -/

/-- Every known code is followed by a turn, and the file runs out of codes. -/
theorem loop_spec (hmin : 9 ≤ p.maxbits) (hmax : p.maxbits ≤ 16) (turns : ℕ) (d : Decomp)
    (h : Inv p d) (hknown : ∀ n, ∀ c ∈ codes p n d.reader, c.Known p)
    (hturns : d.reader.left < turns) : ∃ d', loop p p.maxmaxcode turns d = .ok d' := by
  induction turns generalizing d with
  | zero => exact absurd hturns (Nat.not_lt_zero _)
  | succ turns ih =>
    rw [loop]
    rcases hread : nextCode p d.reader with ⟨_ | ⟨cleared, code⟩, r⟩
    · exact ⟨_, rfl⟩
    · obtain ⟨hleft, -⟩ := nextCode_left h.bits hread
      have hcodes : ∀ n, codes p (n + 1) d.reader =
          ⟨cleared, code, r.free_ent⟩ :: codes p n (r.grow p) := by
        intro n
        rw [codes, hread]
      obtain ⟨d', hturn, hinv, hreader⟩ := turn_spec hmin hmax h hread
        (hknown 1 _ (by rw [hcodes]; exact List.mem_cons_self))
      dsimp only
      rw [hturn, Fault.ok_bind]
      apply ih d' hinv
      · intro n c hc
        rw [hreader] at hc
        exact hknown (n + 1) c (by rw [hcodes]; exact List.mem_cons_of_mem _ hc)
      · have hgrow : (r.grow p).left = r.left := by
          unfold Reader.grow
          split <;> rfl
        rw [hreader, hgrow]
        omega

/-- The routine ends, no chain takes more than `2^maxbits` steps, and neither the tables nor the
stack are overrun. -/
def Contained (p : Params) (r : Reader) (tab : Tables) : Prop :=
  ∃ turns out, decompress p (2 ^ p.maxbits) turns r tab = .ok out

/-- A file whose first code is a character, and whose every later code is in the table when it is
read, or is the one entered next, is uncompressed within the tables. -/
theorem decompress_contained (p : Params) (hmin : 9 ≤ p.maxbits) (hmax : p.maxbits ≤ 16)
    (r : Reader) (tab : Tables) (hknown : Known p r) : Contained p r tab := by
  unfold Contained decompress
  unfold Known at hknown
  rcases hfirst : getcode p (r.start p) with ⟨_ | code, r'⟩
  · exact ⟨0, [], rfl⟩
  · rw [hfirst] at hknown
    obtain ⟨hcode, hcodes⟩ := hknown
    obtain ⟨-, hfree, hbits⟩ := getcode_left (p := p) (r := r.start p) (Nat.le_refl 9) hfirst
    have hbig : 2 ^ 9 ≤ p.maxmaxcode := Nat.pow_le_pow_right (by decide) hmin
    -- there are no entries yet but the characters
    have hstart : 256 ≤ r'.free_ent ∧ r'.free_ent ≤ 257 ∧
        (p.block_compress = false → r'.free_ent = 256) := by
      rw [hfree]
      unfold Reader.start FIRST
      cases p.block_compress <;> simp
    have hinv : Inv p (Decomp.mk r' tab.start code code
        (Sink.put ⟨[], []⟩ (BitVec.ofNat 8 code))) := by
      refine ⟨hbits, ?_, hstart.1, ?_, Nat.lt_of_lt_of_le hcode hstart.1,
        Params.used_of_lt hcode⟩
      · exact Nat.le_trans hstart.2.1 (Nat.le_trans (by decide) hbig)
      · intro e hlow hlt hused
        have hlt' : e < r'.free_ent := hlt
        cases hb : p.block_compress with
        | true => exact absurd (show e = CLEAR by unfold CLEAR; omega) (hused hb)
        | false =>
          have := hstart.2.2 hb
          omega
    obtain ⟨d, hd⟩ := loop_spec hmin hmax (r'.left + 1) _ hinv hcodes (Nat.lt_succ_self _)
    refine ⟨r'.left + 1, d.out.flush, ?_⟩
    dsimp only
    rw [show 2 ^ p.maxbits = p.maxmaxcode from rfl, hd]
    rfl

/-- The codes 65 and 257, of which the second is entered as it is read. -/
theorem decompress_contained_known : Contained ⟨16, true⟩ (Reader.fresh [65, 2, 2]) Tables.fresh := by
  apply decompress_contained ⟨16, true⟩ (by decide) (by decide)
  refine ⟨by decide, ?_⟩
  intro turns c hc
  match turns with
  | 0 => exact absurd hc List.not_mem_nil
  | 1 | n + 2 =>
    obtain rfl := List.mem_singleton.1 hc
    exact Or.inr ⟨rfl, by decide⟩

/-! ## An unknown code -/

/-- An uncompression that has no end, or no room, after a turn has none before it. -/
theorem loop_fails {steps : ℕ} {d d' : Decomp} (cleared : Bool) (code : ℕ) {r : Reader}
    (hread : nextCode p d.reader = (some (cleared, code), r))
    (hturn : turn p steps d cleared code r = .ok d')
    (h : ∀ turns x, loop p steps turns d' ≠ .ok x) (turns : ℕ) (x : Decomp) :
    loop p steps turns d ≠ .ok x := by
  cases turns with
  | zero => nofun
  | succ turns =>
    rw [loop, hread]
    dsimp only
    rw [hturn, Fault.ok_bind]
    exact h turns x

/-- A code that is its own prefix is the end of it. -/
theorem loop_cycle {steps : ℕ} {d : Decomp} (code : ℕ) {r : Reader}
    (hread : nextCode p d.reader = (some (false, code), r)) (hlow : 256 ≤ code)
    (hcode : code < r.free_ent) (hself : (d.tab.tab_prefix code).toNat = code) (turns : ℕ)
    (x : Decomp) : loop p steps turns d ≠ .ok x := by
  cases turns with
  | zero => nofun
  | succ turns =>
    rw [loop, hread]
    intro h
    obtain ⟨d', hturn, -⟩ := Fault.bind_eq_ok.1 h
    unfold turn at hturn
    obtain ⟨y, hstring, -⟩ := Fault.bind_eq_ok.1 hturn
    unfold string at hstring
    rw [if_neg (Nat.not_le.2 hcode)] at hstring
    exact follow_cycle hlow hself steps [] y hstring

/-- The codes 65, 258, 65 and 258: the second is from beyond the table, and becomes the prefix of
its own entry. -/
theorem decompress_corrupt :
    ¬Contained ⟨16, true⟩ (Reader.fresh [65, 4, 6, 17, 8]) Tables.fresh := by
  rintro ⟨turns, out, h⟩
  obtain ⟨d, hd, -⟩ := Fault.bind_eq_ok.1 h
  refine loop_fails false 258 rfl rfl ?_ turns d hd
  refine loop_fails false 65 rfl rfl ?_
  exact loop_cycle 258 rfl (by decide) (by decide) rfl

end Compress
