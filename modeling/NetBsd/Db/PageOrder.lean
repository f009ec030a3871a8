import Mathlib
import NetBsd.Lib.Reversal

/-!
# The byte order of a page of a btree

`_bt_pgout` and `_bt_pgin` of `db/btree/storage.c` change the words of a page between the byte order
of the host and that of the file. They find the words by the offsets and the flags on the page,
which are to be read in the order of the host. `_bt_pgout` tests the flags of an internal item after
it has swapped them, so that it leaves the page number of a large key alone.

## Main definitions

* `word`, `putWord`, `blswap`: the words of a page
* `pgout`, `pgin`: the two functions
* `WellFormed`: a page whose items fit and do not overlap
* `fields`, `fileImage`: the words of a page, and the page in the order of the file
* `Palindromic`: the chain numbers of large keys read the same in both orders

## Main results

* `pgin_fileImage`: a page is read from its file image
* `restores_iff`: the two functions restore a page and its image when its chain numbers allow it
-/

namespace PageOrder

open Reversal

/-- The bytes of a page. -/
abbrev Page := ℕ → BitVec 8

def word (h : Page) (o : ℕ) : BitVec 32 := h (o + 3) ++ h (o + 2) ++ h (o + 1) ++ h o

def putWord (h : Page) (o : ℕ) (v : BitVec 32) : Page := fun k =>
  if k = o then v.extractLsb' 0 8
  else if k = o + 1 then v.extractLsb' 8 8
  else if k = o + 2 then v.extractLsb' 16 8
  else if k = o + 3 then v.extractLsb' 24 8
  else h k

/-- `__byte_swap_long`. -/
def byteSwapLong (v : BitVec 32) : BitVec 32 :=
  v.extractLsb' 0 8 ++ v.extractLsb' 8 8 ++ v.extractLsb' 16 8 ++ v.extractLsb' 24 8

/-- `BLSWAP`, of a field in place or of a copy that goes back where it came from. -/
def blswap (h : Page) (o : ℕ) : Page := putWord h o (byteSwapLong (word h o))

/-! `BTHEADER`, with the offsets of its fields. -/

abbrev hPgno : ℕ := 0
abbrev hPrevpg : ℕ := 4
abbrev hNextpg : ℕ := 8
abbrev hFlags : ℕ := 12
abbrev hLower : ℕ := 16
abbrev hUpper : ℕ := 20
def hLinp (i : ℕ) : ℕ := 24 + 4 * i

def fLeaf (h : Page) : Bool := (word h hFlags).getLsbD 0
def fCont (h : Page) : Bool := (word h hFlags).getLsbD 1

/-- `NEXTINDEX`. -/
def nextindex (h : Page) : ℕ := (word h hLower - 24#32).toNat / 4

/-- `GETDATUM`. -/
def getdatum (h : Page) (i : ℕ) : ℕ := (word h (hLinp i)).toNat

/-! `DATUM` and `IDATUM` have three words before the bytes: the sizes of the key and of the data and
the flags, or the size of the key, the page and the flags. -/

abbrev dKsize (d : ℕ) : ℕ := d
abbrev dDsize (d : ℕ) : ℕ := d + 4
abbrev dFlags (d : ℕ) : ℕ := d + 8
abbrev dBytes (d : ℕ) : ℕ := d + 12
abbrev iSize (d : ℕ) : ℕ := d
abbrev iPgno (d : ℕ) : ℕ := d + 4
abbrev iFlags (d : ℕ) : ℕ := d + 8
abbrev iBytes (d : ℕ) : ℕ := d + 12

def bigdata (f : BitVec 32) : Bool := f.getLsbD 0
def bigkey (f : BitVec 32) : Bool := f.getLsbD 1

def pNone : BitVec 32 := 0

/-- `BYTE_ORDER` of the host. -/
def byteOrder : ℤ := 1234

/-! ### `_bt_pgout` -/

def leafOut (h : Page) (i : ℕ) : Page :=
  let d := getdatum h i
  let h := if bigkey (word h (dFlags d)) then blswap h (dBytes d) else h
  let h := if bigdata (word h (dFlags d)) then blswap h (dBytes d + (word h (dKsize d)).toNat) else h
  let h := blswap h (dDsize d)
  let h := blswap h (dKsize d)
  let h := blswap h (dFlags d)
  blswap h (hLinp i)

/-- The flags are tested when they are no longer in the order of the host. -/
def internalOut (h : Page) (i : ℕ) : Page :=
  let id := getdatum h i
  let h := blswap h (iSize id)
  let h := blswap h (iPgno id)
  let h := blswap h (iFlags id)
  let h := if bigkey (word h (iFlags id)) then blswap h (iBytes id) else h
  blswap h (hLinp i)

def itemsOut (h : Page) : Page :=
  if fLeaf h then
    if fCont h then
      if word h hPrevpg = pNone then blswap h (hLinp 0) else h
    else (List.range (nextindex h)).foldl leafOut h
  else (List.range (nextindex h)).foldl internalOut h

def headerOut (h : Page) : Page :=
  let h := blswap h hFlags
  let h := blswap h hPgno
  let h := blswap h hPrevpg
  let h := blswap h hNextpg
  let h := blswap h hLower
  blswap h hUpper

def pgout (h : Page) (lorder : ℤ) : Page :=
  if lorder = byteOrder then h else headerOut (itemsOut h)

/-! ### `_bt_pgin` -/

def headerIn (h : Page) : Page :=
  let h := blswap h hUpper
  let h := blswap h hLower
  let h := blswap h hNextpg
  let h := blswap h hPrevpg
  let h := blswap h hPgno
  blswap h hFlags

def leafIn (h : Page) (i : ℕ) : Page :=
  let h := blswap h (hLinp i)
  let d := getdatum h i
  let h := blswap h (dDsize d)
  let h := blswap h (dKsize d)
  let h := blswap h (dFlags d)
  let h := if bigkey (word h (dFlags d)) then blswap h (dBytes d) else h
  if bigdata (word h (dFlags d)) then blswap h (dBytes d + (word h (dKsize d)).toNat) else h

def internalIn (h : Page) (i : ℕ) : Page :=
  let h := blswap h (hLinp i)
  let id := getdatum h i
  let h := blswap h (iSize id)
  let h := blswap h (iPgno id)
  let h := blswap h (iFlags id)
  if bigkey (word h (iFlags id)) then blswap h (iBytes id) else h

def itemsIn (h : Page) : Page :=
  if fLeaf h then
    if fCont h then
      if word h hPrevpg = pNone then blswap h (hLinp 0) else h
    else (List.range (nextindex h)).foldl leafIn h
  else (List.range (nextindex h)).foldl internalIn h

def pgin (h : Page) (lorder : ℤ) : Page :=
  if lorder = byteOrder then h else itemsIn (headerIn h)

/-! ### Words -/

section Words

variable {h q : Page} {a b k o : ℕ} {v : BitVec 32}

theorem byte_byteSwapLong (v : BitVec 32) :
    (byteSwapLong v).extractLsb' 0 8 = v.extractLsb' 24 8 ∧
    (byteSwapLong v).extractLsb' 8 8 = v.extractLsb' 16 8 ∧
    (byteSwapLong v).extractLsb' 16 8 = v.extractLsb' 8 8 ∧
    (byteSwapLong v).extractLsb' 24 8 = v.extractLsb' 0 8 := by
  refine ⟨?_, ?_, ?_, ?_⟩
  all_goals
    apply BitVec.eq_of_getLsbD_eq
    intro i hi
    simp only [byteSwapLong, BitVec.getLsbD_extractLsb', BitVec.getLsbD_append]
    grind

theorem byte_word (h : Page) (o : ℕ) :
    (word h o).extractLsb' 0 8 = h o ∧ (word h o).extractLsb' 8 8 = h (o + 1) ∧
    (word h o).extractLsb' 16 8 = h (o + 2) ∧ (word h o).extractLsb' 24 8 = h (o + 3) := by
  refine ⟨?_, ?_, ?_, ?_⟩
  all_goals
    apply BitVec.eq_of_getLsbD_eq
    intro i hi
    simp only [word, BitVec.getLsbD_extractLsb', BitVec.getLsbD_append]
    grind

/-- Swapping a word is reversing its bytes. -/
theorem blswap_eq_reverse (h : Page) (o : ℕ) : blswap h o = reverse 4 o h := by
  obtain ⟨e₀, e₁, e₂, e₃⟩ := byte_byteSwapLong (word h o)
  obtain ⟨w₀, w₁, w₂, w₃⟩ := byte_word h o
  funext k
  simp only [blswap, putWord, e₀, e₁, e₂, e₃, w₀, w₁, w₂, w₃]
  by_cases hk : o ≤ k ∧ k < o + 4
  · rw [reverse_inside hk.1 hk.2]
    obtain ⟨j, rfl⟩ := Nat.exists_eq_add_of_le hk.1
    have hj : j = 0 ∨ j = 1 ∨ j = 2 ∨ j = 3 := by omega
    rcases hj with rfl | rfl | rfl | rfl
    all_goals
      simp
      congr 1
      omega
  · rw [reverse_outside (by omega), if_neg (by omega), if_neg (by omega), if_neg (by omega),
      if_neg (by omega)]

theorem word_congr (hq : ∀ k, o ≤ k → k < o + 4 → q k = h k) : word q o = word h o := by
  simp only [word]
  rw [hq o (by omega) (by omega), hq (o + 1) (by omega) (by omega),
    hq (o + 2) (by omega) (by omega), hq (o + 3) (by omega) (by omega)]

theorem word_reverse (ha : Apart 4 a o) : word (reverse 4 a h) o = word h o := by
  unfold Apart at ha
  exact word_congr fun k h₁ h₂ => reverse_outside (by omega)

theorem word_reverseAll {os : List ℕ} (ha : ∀ a ∈ os, Apart 4 a o) :
    word (reverseAll 4 os h) o = word h o := by
  apply word_congr
  intro k h₁ h₂
  apply reverseAll_outside
  intro a hm
  have := ha a hm
  unfold Apart at this
  omega

theorem word_putWord (h : Page) (o : ℕ) (v : BitVec 32) : word (putWord h o v) o = v := by
  apply BitVec.eq_of_getLsbD_eq
  intro i hi
  simp only [word, putWord, BitVec.getLsbD_append]
  grind

/-- The flags after the swap: only the first byte of small flags is set, and it goes last. -/
theorem word_reverse_self (h : Page) (o : ℕ) :
    word (reverse 4 o h) o = byteSwapLong (word h o) := by
  rw [← blswap_eq_reverse, blswap, word_putWord]

/-- A word is left alone by a swap when it is a palindrome. -/
theorem reverse_eq_self_iff : reverse 4 o h = h ↔ byteSwapLong (word h o) = word h o := by
  constructor
  · intro hr
    rw [← word_reverse_self, hr]
  · intro hw
    obtain ⟨w₀, w₁, w₂, w₃⟩ := byte_word h o
    rw [← blswap_eq_reverse, blswap, hw]
    funext k
    simp only [putWord, w₀, w₁, w₂, w₃]
    split_ifs with h₀ h₁ h₂ h₃
    · rw [h₀]
    · rw [h₁]
    · rw [h₂]
    · rw [h₃]
    · rfl

theorem bigkey_byteSwapLong (hv : v.toNat < 4) : bigkey (byteSwapLong v) = false := by
  have hb : v.getLsbD 25 = false := by
    rw [← BitVec.testBit_toNat]
    exact Nat.testBit_lt_two_pow (by omega)
  simp only [bigkey, byteSwapLong, BitVec.getLsbD_append, BitVec.getLsbD_extractLsb']
  simpa using hb

end Words

/-! ### The words of a page -/

/-- The words that `d_bytes` or `i_bytes` begin with or hold: the numbers of the chains. -/
def leafChains (h : Page) (d : ℕ) : List ℕ :=
  (if bigdata (word h (dFlags d)) then [dBytes d + (word h (dKsize d)).toNat] else []) ++
    if bigkey (word h (dFlags d)) then [dBytes d] else []

def internalChains (h : Page) (d : ℕ) : List ℕ :=
  if bigkey (word h (iFlags d)) then [iBytes d] else []

/-- The entry in `h_linp` and the three words of an item. -/
def itemWords (h : Page) (i : ℕ) : List ℕ :=
  [hLinp i, getdatum h i + 8, getdatum h i, getdatum h i + 4]

/-- The number of items of a page that has items. -/
def items (h : Page) : ℕ := if fLeaf h && fCont h then 0 else nextindex h

def chains (h : Page) (i : ℕ) : List ℕ :=
  if fLeaf h then leafChains h (getdatum h i) else internalChains h (getdatum h i)

/-- The size of the first part of a chain of continuation pages. -/
def sizeWord (h : Page) : List ℕ :=
  if fLeaf h && fCont h && decide (word h hPrevpg = pNone) then [hLinp 0] else []

def headerWords : List ℕ := [hUpper, hLower, hNextpg, hPrevpg, hPgno, hFlags]

/-- Every word of a page that belongs to the structure of the btree. -/
def fields (h : Page) : List ℕ :=
  headerWords ++ (sizeWord h ++ gather (fun i => chains h i ++ itemWords h i) (items h))

/-- The page as it is in a file: all its words are in the order of the file. -/
def fileImage (lorder : ℤ) (h : Page) : Page :=
  if lorder = byteOrder then h else reverseAll 4 (fields h) h

/-- The bytes of an item behind its three words. -/
def extent (h : Page) (d : ℕ) : ℕ :=
  if fLeaf h then (word h (dKsize d)).toNat + (word h (dDsize d)).toNat
  else (word h (iSize d)).toNat

/-- The entry of an item in `h_linp`, and the item. -/
def region (h : Page) (i : ℕ) : Set ℕ :=
  {k | hLinp i ≤ k ∧ k < hLinp (i + 1) ∨
    getdatum h i ≤ k ∧ k < getdatum h i + 12 + extent h (getdatum h i)}

/-- An item with its flags, and with room for the numbers of its chains. -/
structure ItemOk (h : Page) (d : ℕ) : Prop where
  flags : (word h (dFlags d)).toNat < 4
  bigkey : bigkey (word h (dFlags d)) → 4 ≤ (word h (dKsize d)).toNat
  bigdata : fLeaf h → bigdata (word h (dFlags d)) → 4 ≤ (word h (dDsize d)).toNat

/-- A page of `psize` bytes whose items lie above its free space and do not overlap. -/
structure WellFormed (psize : ℕ) (h : Page) : Prop where
  lower : 24 ≤ (word h hLower).toNat
  upper : (word h hLower).toNat ≤ (word h hUpper).toNat
  above : ∀ i < items h, (word h hUpper).toNat ≤ getdatum h i
  fits : ∀ i < items h, getdatum h i + 12 + extent h (getdatum h i) ≤ psize
  apart : ∀ i < items h, ∀ j < items h, i ≠ j →
    getdatum h i + 12 + extent h (getdatum h i) ≤ getdatum h j ∨
    getdatum h j + 12 + extent h (getdatum h j) ≤ getdatum h i
  item : ∀ i < items h, ItemOk h (getdatum h i)

section Page

variable {psize i : ℕ} {h q : Page}

theorem items_le (hp : WellFormed psize h) (hi : i < items h) :
    hLinp (i + 1) ≤ (word h hUpper).toNat := by
  have hl := hp.lower
  have hu := hp.upper
  have hn : items h ≤ nextindex h := by
    unfold items
    split_ifs
    · exact Nat.zero_le _
    · exact le_rfl
  have hs : (word h hLower - 24#32).toNat = (word h hLower).toNat - 24 :=
    BitVec.toNat_sub_of_le (by simpa [BitVec.le_def] using hl)
  simp only [nextindex, hs] at hn
  simp only [hLinp]
  omega

theorem disjoint_region (hp : WellFormed psize h) {j : ℕ} (hi : i < items h) (hj : j < items h)
    (hij : i ≠ j) : Disjoint (region h i) (region h j) := by
  have ei := items_le hp hi
  have ej := items_le hp hj
  have ai := hp.above i hi
  have aj := hp.above j hj
  have aij := hp.apart i hi j hj hij
  rw [Set.disjoint_left]
  rintro k (hk | hk) (hk' | hk')
  all_goals
    simp only [hLinp] at *
    omega

theorem within_itemWords {o : ℕ} (ho : o ∈ itemWords h i) :
    Within 4 o (region h i) := by
  intro k h₁ h₂
  simp only [itemWords, List.mem_cons, List.not_mem_nil, or_false] at ho
  simp only [region, Set.mem_ofPred_eq, hLinp] at *
  omega

/-- The numbers of the chains lie in the bytes of the item. -/
theorem mem_chains (hp : WellFormed psize h) (hi : i < items h) {o : ℕ} (ho : o ∈ chains h i) :
    getdatum h i + 12 ≤ o ∧ o + 4 ≤ getdatum h i + 12 + extent h (getdatum h i) := by
  have hk := (hp.item i hi).bigkey
  have hd := (hp.item i hi).bigdata
  cases hl : fLeaf h with
  | false =>
    simp only [chains, hl, internalChains, Bool.false_eq_true, if_false] at ho
    split at ho
    · rename_i hb
      have hs := hk hb
      simp only [List.mem_singleton, iBytes] at ho
      simp only [extent, hl, iSize, Bool.false_eq_true, if_false]
      simp only [dKsize] at hs
      omega
    · cases ho
  | true =>
    simp only [chains, hl, leafChains, if_true, List.mem_append] at ho
    simp only [extent, hl, if_true]
    rcases ho with ho | ho
    · split at ho
      · rename_i hb
        have hs := hd hl hb
        simp only [List.mem_singleton, dBytes] at ho
        omega
      · cases ho
    · split at ho
      · rename_i hb
        have hs := hk hb
        simp only [List.mem_singleton, dBytes] at ho
        omega
      · cases ho

theorem regions_itemWords (hp : WellFormed psize h) :
    Regions 4 (region h) (itemWords h) (items h) where
  within _ _ _ ho := within_itemWords ho
  pairwise i hi := by
    have hl := items_le hp hi
    have ha := hp.above i hi
    simp only [itemWords, List.pairwise_cons, List.mem_cons, List.not_mem_nil, or_false,
      forall_eq_or_imp, forall_eq, Apart, hLinp] at *
    simp
    omega
  disjoint i hi j hj hij := disjoint_region hp hi hj hij

theorem pairwise_chains (hp : WellFormed psize h) (hi : i < items h) :
    (chains h i).Pairwise (Apart 4) := by
  have hk := (hp.item i hi).bigkey
  simp only [chains, leafChains, internalChains]
  split_ifs with hl hb hb'
  all_goals
    simp_all only [List.nil_append, List.append_nil, List.cons_append, List.pairwise_cons,
      List.mem_cons, List.not_mem_nil, or_false, forall_eq, List.Pairwise.nil, and_true,
      false_imp_iff, implies_true, Apart, dBytes, true_imp_iff]
    try omega

theorem regions_chains (hp : WellFormed psize h) :
    Regions 4 (region h) (chains h) (items h) where
  within i hi o ho := by
    have := mem_chains hp hi ho
    intro k h₁ h₂
    simp only [region, Set.mem_ofPred_eq]
    omega
  pairwise i hi := pairwise_chains hp hi
  disjoint i hi j hj hij := disjoint_region hp hi hj hij

theorem apart_chains_itemWords (hp : WellFormed psize h) (hi : i < items h) {a b : ℕ}
    (ha : a ∈ chains h i) (hb : b ∈ itemWords h i) : Apart 4 a b := by
  have hc := mem_chains hp hi ha
  have hl := items_le hp hi
  have hu := hp.above i hi
  simp only [itemWords, List.mem_cons, List.not_mem_nil, or_false, hLinp] at hb hl
  unfold Apart
  omega

theorem regions_all (hp : WellFormed psize h) :
    Regions 4 (region h) (fun i => chains h i ++ itemWords h i) (items h) where
  within i hi o ho := by
    rcases List.mem_append.1 ho with ho | ho
    · exact (regions_chains hp).within i hi o ho
    · exact within_itemWords ho
  pairwise i hi := List.pairwise_append.2 ⟨pairwise_chains hp hi,
    (regions_itemWords hp).pairwise i hi, fun a ha b hb => apart_chains_itemWords hp hi ha hb⟩
  disjoint i hi j hj hij := disjoint_region hp hi hj hij

/-! ### One item -/

/-- The words of an item are those of the page `h`. -/
def Reads (q h : Page) (i : ℕ) : Prop := ∀ o ∈ itemWords h i, word q o = word h o

theorem reads_of_agree (ha : Agree (region h i) q h) : Reads q h i :=
  fun _ ho => word_congr fun k h₁ h₂ => ha k (within_itemWords ho k h₁ h₂)

theorem Reads.getdatum_eq (ha : Reads q h i) : getdatum q i = getdatum h i := by
  unfold getdatum
  rw [ha (hLinp i) (by simp [itemWords])]

theorem Reads.flags (ha : Reads q h i) :
    word q (getdatum h i + 8) = word h (getdatum h i + 8) :=
  ha _ (by simp [itemWords])

theorem Reads.ksize (ha : Reads q h i) : word q (getdatum h i) = word h (getdatum h i) :=
  ha _ (by simp [itemWords])

theorem linp_below (hp : WellFormed psize h) (hi : i < items h) :
    hLinp i + 4 ≤ getdatum h i := by
  have hl := items_le hp hi
  have hu := hp.above i hi
  simp only [hLinp] at *
  omega

theorem fields_comm (hp : WellFormed psize h) (hi : i < items h) :
    reverseAll 4 (chains h i ++ itemWords h i) q =
      reverseAll 4 (itemWords h i) (reverseAll 4 (chains h i) q) := by
  rw [reverseAll_append]
  exact reverseAll_comm fun a ha b hb => apart_chains_itemWords hp hi ha hb

/-- The chains of a leaf item, swapped after a look at its flags and the size of its key. -/
theorem swap_leafChains (hl : fLeaf h = true) (ha : Reads q h i) :
    (let d := getdatum h i
     let q := if bigkey (word q (dFlags d)) then blswap q (dBytes d) else q
     if bigdata (word q (dFlags d)) then blswap q (dBytes d + (word q (dKsize d)).toNat) else q) =
      reverseAll 4 (chains h i) q := by
  have hf := ha.flags
  have hk := ha.ksize
  -- the first swap touches neither the flags nor the size
  have hf' : word (reverse 4 (getdatum h i + 12) q) (getdatum h i + 8) =
      word h (getdatum h i + 8) := by
    rw [word_reverse (by unfold Apart; omega), hf]
  have hk' : word (reverse 4 (getdatum h i + 12) q) (getdatum h i) = word h (getdatum h i) := by
    rw [word_reverse (by unfold Apart; omega), hk]
  simp only [chains, hl, if_true, leafChains, dFlags, dBytes, dKsize, blswap_eq_reverse, hf]
  cases hb : bigkey (word h (getdatum h i + 8)) with
  | true =>
    simp only [if_true, hf', hk']
    split
    · simp
    · simp
  | false =>
    simp only [Bool.false_eq_true, if_false, hf, hk, List.append_nil]
    split
    · simp
    · simp

theorem leafOut_eq (hp : WellFormed psize h) (hi : i < items h) (hl : fLeaf h = true)
    (ha : Reads q h i) :
    leafOut q i = reverseAll 4 (chains h i ++ itemWords h i) q := by
  have hc := swap_leafChains hl ha
  rw [fields_comm hp hi, ← hc]
  simp only [leafOut, ha.getdatum_eq, itemWords, reverseAll_cons, reverseAll_nil,
    blswap_eq_reverse, dFlags, dKsize, dDsize]

/-- The flags are never found set after they have been swapped. -/
theorem internalOut_eq (hp : WellFormed psize h) (hi : i < items h)
    (ha : Reads q h i) : internalOut q i = reverseAll 4 (itemWords h i) q := by
  -- the flags are less than 4, and their swap has its second bit clear
  have hf : bigkey (word (reverse 4 (getdatum h i + 8) (reverse 4 (getdatum h i + 4)
      (reverse 4 (getdatum h i) q))) (getdatum h i + 8)) = false := by
    rw [word_reverse_self, word_reverse (by unfold Apart; omega),
      word_reverse (by unfold Apart; omega), ha.flags]
    exact bigkey_byteSwapLong (hp.item i hi).flags
  simp only [internalOut, ha.getdatum_eq, blswap_eq_reverse, iSize, iPgno, iFlags, hf,
    itemWords, reverseAll_cons, reverseAll_nil, Bool.false_eq_true, if_false]
  rw [reverse_comm (a := getdatum h i + 4) (by unfold Apart; omega)]

/-- The entry in `h_linp` is the first word to be swapped back. -/
theorem getdatum_back (hp : WellFormed psize h) (hi : i < items h)
    (ha : Reads q h i) :
    getdatum (reverse 4 (hLinp i) (reverseAll 4 (itemWords h i) q)) i = getdatum h i := by
  -- the entry is apart from the words of the item, which lie above it
  have hl := linp_below hp hi
  rw [itemWords, reverseAll_cons, reverse_reverse]
  unfold getdatum
  rw [word_reverseAll, ha _ (by simp [itemWords])]
  intro a hm
  change a ∈ [getdatum h i + 8, getdatum h i, getdatum h i + 4] at hm
  simp only [List.mem_cons, List.not_mem_nil, or_false] at hm
  unfold Apart
  omega

/-- The three words of an item swapped back, in either order. -/
theorem words_back (q : Page) (l d : ℕ) :
    reverse 4 (d + 8) (reverse 4 d (reverse 4 (d + 4)
      (reverse 4 l (reverseAll 4 [l, d + 8, d, d + 4] q)))) = q ∧
    reverse 4 (d + 8) (reverse 4 (d + 4) (reverse 4 d
      (reverse 4 l (reverseAll 4 [l, d + 8, d, d + 4] q)))) = q := by
  have h₁ : Apart 4 (d + 4) (d + 8) := by unfold Apart; omega
  have h₂ : Apart 4 (d + 4) d := by unfold Apart; omega
  have h₃ : Apart 4 d (d + 8) := by unfold Apart; omega
  simp only [reverseAll_cons, reverseAll_nil, reverse_reverse]
  constructor
  · rw [reverse_comm h₁, reverse_comm h₂, reverse_reverse, reverse_comm h₃, reverse_reverse,
      reverse_reverse]
  · rw [reverse_comm h₃, reverse_reverse, reverse_comm h₁, reverse_reverse, reverse_reverse]

theorem leafIn_eq (hp : WellFormed psize h) (hi : i < items h) (hl : fLeaf h = true)
    (ha : Reads q h i) :
    leafIn (reverseAll 4 (itemWords h i) q) i = reverseAll 4 (chains h i) q := by
  have hc := swap_leafChains hl ha
  have hg := getdatum_back hp hi ha
  have hb := (words_back q (hLinp i) (getdatum h i)).1
  rw [← hc]
  simp only [leafIn, blswap_eq_reverse, hg, dDsize, dKsize, dFlags, dBytes]
  rw [itemWords, hb]

theorem internalIn_eq (hp : WellFormed psize h) (hi : i < items h) (hl : fLeaf h = false)
    (ha : Reads q h i) :
    internalIn (reverseAll 4 (itemWords h i) q) i = reverseAll 4 (chains h i) q := by
  have hg := getdatum_back hp hi ha
  have hb := (words_back q (hLinp i) (getdatum h i)).2
  simp only [internalIn, blswap_eq_reverse, hg, iSize, iPgno, iFlags, iBytes, chains, hl,
    internalChains, Bool.false_eq_true, if_false]
  rw [itemWords, hb, ha.flags]
  split
  · simp
  · simp

theorem Reads.chains (hp : WellFormed psize h) (hi : i < items h) (ha : Reads q h i) :
    Reads (reverseAll 4 (chains h i) q) h i := by
  intro o ho
  rw [word_reverseAll fun a hm => apart_chains_itemWords hp hi hm ho, ha o ho]

theorem leafIn_back (hp : WellFormed psize h) (hi : i < items h) (hl : fLeaf h = true)
    (ha : Reads q h i) : leafIn (reverseAll 4 (chains h i ++ itemWords h i) q) i = q := by
  rw [fields_comm hp hi, leafIn_eq hp hi hl (ha.chains hp hi), reverseAll_self]
  exact pairwise_chains hp hi

theorem internalIn_back (hp : WellFormed psize h) (hi : i < items h) (hl : fLeaf h = false)
    (ha : Reads q h i) : internalIn (reverseAll 4 (chains h i ++ itemWords h i) q) i = q := by
  rw [fields_comm hp hi, internalIn_eq hp hi hl (ha.chains hp hi), reverseAll_self]
  exact pairwise_chains hp hi

/-! ### The whole page -/

theorem headerOut_eq (q : Page) : headerOut q = reverseAll 4 headerWords q := by
  simp [headerOut, headerWords, blswap_eq_reverse]

theorem headerIn_back (q : Page) : headerIn (reverseAll 4 headerWords q) = q := by
  simp [headerIn, headerWords, blswap_eq_reverse]

/-- The words of the header are not among those behind it. -/
theorem word_header {os : List ℕ} (hos : ∀ a ∈ os, 24 ≤ a) {o : ℕ} (ho : o ≤ 20) :
    word (reverseAll 4 os h) o = word h o :=
  word_reverseAll fun a ha => Or.inr (by have := hos a ha; omega)

/-- What the two functions take from the header of a page. -/
theorem header_same {os : List ℕ} (hos : ∀ a ∈ os, 24 ≤ a) :
    fLeaf (reverseAll 4 os h) = fLeaf h ∧ fCont (reverseAll 4 os h) = fCont h ∧
    word (reverseAll 4 os h) hPrevpg = word h hPrevpg ∧
    nextindex (reverseAll 4 os h) = nextindex h := by
  refine ⟨?_, ?_, word_header hos (by decide), ?_⟩
  · rw [fLeaf, word_header hos (by decide), fLeaf]
  · rw [fCont, word_header hos (by decide), fCont]
  · rw [nextindex, word_header hos (by decide), nextindex]

theorem le_itemWords (hp : WellFormed psize h) {a : ℕ} (ha : a ∈ gather (itemWords h) (items h)) :
    24 ≤ a := by
  obtain ⟨i, hi, ha⟩ := mem_gather.1 ha
  have hl := linp_below hp hi
  simp only [itemWords, List.mem_cons, List.not_mem_nil, or_false, hLinp] at ha hl
  omega

theorem le_fields (hp : WellFormed psize h) {a : ℕ}
    (ha : a ∈ sizeWord h ++ gather (fun i => chains h i ++ itemWords h i) (items h)) :
    24 ≤ a := by
  rcases List.mem_append.1 ha with ha | ha
  · unfold sizeWord at ha
    split at ha
    · simp only [List.mem_singleton, hLinp] at ha
      omega
    · cases ha
  · obtain ⟨i, hi, ha⟩ := mem_gather.1 ha
    rcases List.mem_append.1 ha with ha | ha
    · have hl := linp_below hp hi
      have hc := mem_chains hp hi ha
      simp only [hLinp] at hl
      omega
    · exact le_itemWords hp (mem_gather.2 ⟨i, hi, ha⟩)

theorem itemsOut_leaf (hp : WellFormed psize h) (hl : fLeaf h = true) :
    itemsOut h =
      reverseAll 4 (sizeWord h ++ gather (fun i => chains h i ++ itemWords h i) (items h)) h := by
  cases hc : fCont h with
  | true =>
    simp only [itemsOut, sizeWord, items, hl, hc, Bool.true_and, decide_eq_true_eq, if_true, gather]
    split
    · simp [blswap_eq_reverse]
    · simp
  | false =>
    have hn : items h = nextindex h := by simp [items, hc]
    have hs : sizeWord h = [] := by simp [sizeWord, hc]
    have hout := (regions_all hp).foldl_out (m := h) (f := leafOut)
      fun i hi q ha => leafOut_eq hp hi hl (reads_of_agree ha)
    simp only [itemsOut, hl, hc, if_true, hs, List.nil_append, Bool.false_eq_true, if_false]
    rw [← hout, hn]

theorem itemsOut_internal (hp : WellFormed psize h) (hl : fLeaf h = false) :
    itemsOut h = reverseAll 4 (gather (itemWords h) (items h)) h := by
  have hn : items h = nextindex h := by simp [items, hl]
  have hout := (regions_itemWords hp).foldl_out (m := h) (f := internalOut)
    fun i hi q ha => internalOut_eq hp hi (reads_of_agree ha)
  simp only [itemsOut, hl, Bool.false_eq_true, if_false]
  rw [← hout, hn]

theorem regions_nil (hp : WellFormed psize h) :
    Regions 4 (region h) (fun _ => []) (items h) where
  within _ _ _ ho := by cases ho
  pairwise _ _ := List.Pairwise.nil
  disjoint i hi j hj hij := disjoint_region hp hi hj hij

theorem gather_nil (n : ℕ) : gather (fun _ => []) n = [] := by
  induction n with
  | zero => rfl
  | succ n ih => rw [gather, ih, List.append_nil]

/-- A page whose words behind the header are all in the order of the file. -/
theorem itemsIn_back (hp : WellFormed psize h) :
    itemsIn (reverseAll 4
      (sizeWord h ++ gather (fun i => chains h i ++ itemWords h i) (items h)) h) = h := by
  obtain ⟨el, ec, ep, en⟩ := header_same (h := h) fun a ha => le_fields hp ha
  simp only [itemsIn, el, ec, ep, en]
  cases hl : fLeaf h with
  | false =>
    have hn : items h = nextindex h := by simp [items, hl]
    have hs : sizeWord h = [] := by simp [sizeWord, hl]
    have hin := (regions_all hp).foldl_back (m := h) (q := h) (f := internalIn)
      (regions_nil hp) (by omega)
      (fun i hi q ha => internalIn_back hp hi hl (reads_of_agree ha)) fun i hi k hk => rfl
    simp only [Bool.false_eq_true, if_false, hs, List.nil_append]
    rw [gather_nil, reverseAll_nil, hn] at hin
    rw [hn, hin]
  | true =>
    cases hc : fCont h with
    | true =>
      simp only [if_true, sizeWord, items, hl, hc, Bool.true_and, decide_eq_true_eq, gather,
        List.append_nil]
      split
      · simp [blswap_eq_reverse]
      · simp
    | false =>
      have hn : items h = nextindex h := by simp [items, hc]
      have hs : sizeWord h = [] := by simp [sizeWord, hc]
      have hin := (regions_all hp).foldl_back (m := h) (q := h) (f := leafIn)
        (regions_nil hp) (by omega)
        (fun i hi q ha => leafIn_back hp hi hl (reads_of_agree ha)) fun i hi k hk => rfl
      simp only [Bool.false_eq_true, if_false, if_true, hs, List.nil_append]
      rw [gather_nil, reverseAll_nil, hn] at hin
      rw [hn, hin]

/-- What becomes of the page that `_bt_pgout` makes of an internal page. -/
theorem itemsIn_internal (hp : WellFormed psize h) (hl : fLeaf h = false) :
    itemsIn (reverseAll 4 (gather (itemWords h) (items h)) h) =
      reverseAll 4 (gather (chains h) (items h)) h := by
  obtain ⟨el, ec, ep, en⟩ := header_same (h := h) fun a ha => le_itemWords hp ha
  have hn : items h = nextindex h := by simp [items, hl]
  have hin := (regions_itemWords hp).foldl_back (m := h) (q := h) (f := internalIn)
    (regions_chains hp) (by omega)
    (fun i hi q ha => internalIn_eq hp hi hl (reads_of_agree ha)) fun i hi k hk => rfl
  simp only [itemsIn, el, hl, en, Bool.false_eq_true, if_false]
  rw [← hin, hn]

/-- Whatever the byte order of the file, a page is read from its image. -/
theorem pgin_fileImage (hp : WellFormed psize h) (lorder : ℤ) :
    pgin (fileImage lorder h) lorder = h := by
  unfold pgin fileImage
  split
  · rfl
  · rw [fields, reverseAll_append, headerIn_back, itemsIn_back hp]

theorem pgout_leaf (hp : WellFormed psize h) (hl : fLeaf h = true) (lorder : ℤ) :
    pgout h lorder = fileImage lorder h := by
  unfold pgout fileImage
  split
  · rfl
  · rw [headerOut_eq, itemsOut_leaf hp hl, ← reverseAll_append, fields]

/-- The numbers of the chains of large keys on an internal page read the same in both orders. -/
def Palindromic (h : Page) : Prop :=
  fLeaf h = false → ∀ i < items h, bigkey (word h (iFlags (getdatum h i))) →
    byteSwapLong (word h (iBytes (getdatum h i))) = word h (iBytes (getdatum h i))

theorem apart_gather (hp : WellFormed psize h) {a b : ℕ} (ha : a ∈ gather (chains h) (items h))
    (hb : b ∈ gather (itemWords h) (items h)) : Apart 4 a b := by
  obtain ⟨i, hi, ha⟩ := mem_gather.1 ha
  obtain ⟨j, hj, hb⟩ := mem_gather.1 hb
  by_cases hij : i = j
  · subst hij
    exact apart_chains_itemWords hp hi ha hb
  · exact (regions_chains hp).apart (regions_itemWords hp) (by omega) hi hj hij ha hb

theorem chains_eq_self_iff (hp : WellFormed psize h) (hl : fLeaf h = false) :
    reverseAll 4 (gather (chains h) (items h)) h = h ↔ Palindromic h := by
  rw [reverseAll_eq_self_iff ((regions_chains hp).gather_pairwise (by omega))]
  constructor
  · intro hr _ i hi hb
    have hm : iBytes (getdatum h i) ∈ chains h i := by
      simp [chains, hl, internalChains, hb]
    exact reverse_eq_self_iff.1 (hr _ (mem_gather.2 ⟨i, hi, hm⟩))
  · intro hw o ho
    obtain ⟨i, hi, ho⟩ := mem_gather.1 ho
    simp only [chains, hl, internalChains, Bool.false_eq_true, if_false] at ho
    split at ho
    · rename_i hb
      rw [List.mem_singleton] at ho
      subst ho
      exact reverse_eq_self_iff.2 (hw hl i hi hb)
    · cases ho

theorem pgin_pgout_internal (hp : WellFormed psize h) (hl : fLeaf h = false) {lorder : ℤ}
    (ho : lorder ≠ byteOrder) :
    pgin (pgout h lorder) lorder = reverseAll 4 (gather (chains h) (items h)) h := by
  simp only [pgin, pgout, if_neg ho]
  rw [headerOut_eq, headerIn_back, itemsOut_internal hp hl, itemsIn_internal hp hl]

/-- Where the chains read the same both ways, the file image is what `_bt_pgout` makes. -/
theorem pgout_internal (hp : WellFormed psize h) (hl : fLeaf h = false) {lorder : ℤ}
    (ho : lorder ≠ byteOrder) (hw : Palindromic h) : pgout h lorder = fileImage lorder h := by
  have hs : sizeWord h = [] := by simp [sizeWord, hl]
  have hc : reverseAll 4 (gather (fun i => chains h i ++ itemWords h i) (items h)) h =
      reverseAll 4 (gather (itemWords h) (items h)) h := by
    rw [(regions_itemWords hp).gather_append (regions_chains hp) (by omega),
      reverseAll_comm fun a ha b hb => apart_gather hp ha hb, (chains_eq_self_iff hp hl).2 hw]
  simp only [pgout, fileImage, if_neg ho]
  rw [headerOut_eq, itemsOut_internal hp hl, fields, hs, List.nil_append, reverseAll_append, hc]

/-- A page and its file image are restored in the order of the host, and in the other order when no
large key of an internal page has a chain number that depends on the order. -/
theorem restores_iff (hp : WellFormed psize h) (lorder : ℤ) :
    (pgin (pgout h lorder) lorder = h ∧
      pgout (pgin (fileImage lorder h) lorder) lorder = fileImage lorder h) ↔
    lorder = byteOrder ∨ Palindromic h := by
  rw [pgin_fileImage hp lorder]
  by_cases ho : lorder = byteOrder
  · simp [pgin, pgout, fileImage, ho]
  · cases hl : fLeaf h with
    | true =>
      rw [pgout_leaf hp hl, pgin_fileImage hp lorder]
      simp [Palindromic, hl]
    | false =>
      -- the first half decides, and the second follows from it
      rw [pgin_pgout_internal hp hl ho, chains_eq_self_iff hp hl]
      constructor
      · rintro ⟨hw, -⟩
        exact Or.inr hw
      · rintro (he | hw)
        · exact absurd he ho
        · exact ⟨hw, pgout_internal hp hl ho hw⟩

end Page

section Examples

/-- A leaf page of one item with two chains. -/
def twoChains : Page := fun k =>
  [(0, 2), (12, 1), (16, 28), (20, 0xEC), (21, 1), (24, 0xEC), (25, 1), (492, 4), (496, 4),
    (500, 3), (504, 5), (508, 6)].lookup k |>.getD 0

theorem twoChains_wellFormed : WellFormed 512 twoChains :=
  ⟨by decide, by decide, by decide, by decide, by decide, fun i hi => by
    have hi0 : i = 0 := by
      have hn : items twoChains = 1 := by decide
      omega
    subst hi0
    exact ⟨by decide, by decide, by decide⟩⟩

theorem restores_iff_twoChains : WellFormed 512 twoChains ∧
    pgin (pgout twoChains 4321) 4321 = twoChains :=
  ⟨twoChains_wellFormed,
    ((restores_iff twoChains_wellFormed 4321).2 (Or.inr fun hl => absurd hl (by decide))).1⟩

/-- An internal page of one item with a large key, whose chain begins at page 5. -/
def largeKey : Page := fun k =>
  [(0, 2), (16, 28), (20, 0xF0), (21, 1), (24, 0xF0), (25, 1), (496, 4), (500, 3), (504, 2),
    (508, 5)].lookup k |>.getD 0

/-- The chain of a large key on an internal page is lost in the order of another host. -/
theorem largeKey_lost : WellFormed 512 largeKey ∧
    word (pgin (pgout largeKey 4321) 4321) 508 = 5 * 2 ^ 24 ∧
    pgin (pgout largeKey 4321) 4321 ≠ largeKey := by
  have hw : word (pgin (pgout largeKey 4321) 4321) 508 = 5 * 2 ^ 24 := by decide
  refine ⟨⟨by decide, by decide, by decide, by decide, by decide, ?_⟩, hw, ?_⟩
  · intro i hi
    have hn : items largeKey = 1 := by decide
    have hi0 : i = 0 := by omega
    subst hi0
    exact ⟨by decide, by decide, by decide⟩
  · intro he
    rw [he] at hw
    exact absurd hw (by decide)

end Examples

end PageOrder
