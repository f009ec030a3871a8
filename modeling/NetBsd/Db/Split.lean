import Mathlib

/-!
# Splitting a page of a btree

`_bt_dopsplit` of `db/btree/split.c` moves the items of a page to two others. It fills the left page
until more than half of the space is used, goes back to the first of the items with the key of the
last one, and moves what is left to the right page. Items with the key of the first item of the page
stay on the left page, so that they alone may be divided.

## Main definitions

* `Datum`, `Page`, `Tree`: an item, a page, and what is used of a btree
* `fillLeft`, `fillRight`, `dopsplit`: the loop for each of the two pages, and the function
* `Full`: a page of legal items that lacks room for another
* `Splits`: what becomes of the items

## Main results

* `dopsplit_splits`: a full page is split
-/

namespace BTree

abbrev Key := List (BitVec 8)

/-- `DATUM`; in an `IDATUM` the second field is a page number. -/
structure Datum where
  ksize : ℕ
  dsize : ℕ
  bigkey : Bool
  bytes : List (BitVec 8)
  deriving DecidableEq

/-- A page, with the data at the offsets in `h_linp`. -/
structure Page where
  pgno : ℕ
  prevpg : ℕ
  leaf : Bool
  lower : ℕ
  upper : ℕ
  linp : List (ℕ × Datum)
  deriving DecidableEq

structure Cursor where
  pgno : ℕ
  index : BitVec 32
  deriving DecidableEq

/-- What `_bt_dopsplit` uses of a tree: `getbig` gives the key that a chain of pages holds. -/
structure Tree where
  psize : ℕ
  compare : Key → Key → ℤ
  getbig : ℕ → Option Key
  seqinit : Bool
  cursor : Cursor

/-- The offset of `h_linp`, and the size of `index_t`. -/
def linpOffset : ℕ := 24

def indexSize : ℕ := 4

/-- `sizeof (DATUM) - sizeof (char)`, which is the same for `IDATUM`. -/
def fixedsize : ℕ := 15

def P_NONE : ℕ := 0

def MINPSIZE : ℕ := 512

/-- `LONGALIGN`. -/
def longalign (n : ℕ) : ℕ := (n + 3) / 4 * 4

/-- `NEXTINDEX`. -/
def Page.nextindex (h : Page) : ℕ := (h.lower - linpOffset) / indexSize

/-- The items on a page. -/
def Page.items (h : Page) : List Datum := (h.linp.take h.nextindex).map Prod.snd

/-- The size of an item on a page. -/
def datumSize (leaf : Bool) (d : Datum) : ℕ :=
  if leaf then d.ksize + d.dsize + fixedsize else d.ksize + fixedsize

/-- The page number that begins the bytes of a big key. -/
def chain (bytes : List (BitVec 8)) : ℕ := (bytes.take 4).foldr (fun b n => b.toNat + 256 * n) 0

/-- The key of an item; there is none if `_bt_getbig` fails. -/
def Tree.key (t : Tree) (d : Datum) : Option Key :=
  if d.bigkey then t.getbig (chain d.bytes) else some d.bytes

/-- `_bt_cmp`, with the item `d` at index `n` of the current page `h`. -/
def btCmp (t : Tree) (h : Page) (p : Key) (n : ℕ) (d : Datum) : ℤ :=
  if h.prevpg = P_NONE ∧ ¬h.leaf ∧ n = 0 then 1
  else
    match t.key d with
    | none => -1
    | some arg => t.compare p arg

/-- `RET_ERROR`; `switch_i` is read but was not set; or the right page is left for itself. -/
inductive Failure where
  | error
  | unset
  | again
  deriving DecidableEq

/-- The page that is filled, and the space that is left. -/
structure Fill where
  page : Page
  dest : ℕ
  index : ℕ
  nbytes : ℤ

/-- Copy an item and update the page. -/
def Fill.put (m : Fill) (leaf : Bool) (d : Datum) : Fill :=
  let dest := m.dest - longalign (datumSize leaf d)
  { page := { m.page with
      upper := dest
      lower := m.page.lower + indexSize
      linp := m.page.linp.take m.index ++ [(dest, d)] }
    dest := dest
    index := m.index + 1
    nbytes := m.nbytes - (longalign (datumSize leaf d) + indexSize : ℕ) }

/-- The first of the items with the key `key`, and the page before it. -/
structure Save where
  key : Key
  index : ℕ
  lower : ℕ
  upper : ℕ

/-- Whether the item begins with another key than the one before. -/
def saved (t : Tree) (h : Page) (m : Fill) (i : ℕ) (d : Datum) (key : Key) : Option Save → Save
  | none => ⟨key, 0, m.page.lower, m.page.upper⟩
  | some s =>
    if btCmp t h s.key i d ≠ 0 then ⟨key, i, m.page.lower, m.page.upper⟩ else { s with key := key }

/-- The loop for the left page: the page, the items for the right one, and `switch_i`. -/
def fillLeft (t : Tree) (h : Page) (freespc : ℤ) :
    List Datum → ℕ → Fill → Option Save → Except Failure (Page × ℕ × ℕ)
  | [], _, _, _ => .error .unset
  | d :: rest, i, m, save =>
    match t.key d with
    | none => .error .error
    | some key =>
      let save := saved t h m i d key save
      let m := m.put h.leaf d
      if freespc - m.nbytes > m.nbytes then
        if save.index > 0 then
          .ok ({ m.page with lower := save.lower, upper := save.upper }, save.index, m.index)
        else .ok (m.page, i + 1, m.index)
      else fillLeft t h freespc rest (i + 1) m (some save)

/-- The loop for the right page. -/
def fillRight (h : Page) (freespc : ℤ) : List Datum → Fill → Except Failure Fill
  | [], m => .ok m
  | d :: rest, m =>
    let m := m.put h.leaf d
    if freespc - m.nbytes > m.nbytes then .error .again else fillRight h freespc rest m

/-- The two pages and the cursor. -/
structure Split where
  left : Page
  right : Page
  cursor : Cursor

/-- The cursor, when there are `count` items on the right page. -/
def fixCursor (t : Tree) (h right : Page) (switchI count : ℕ) : Cursor :=
  if t.seqinit ∧ t.cursor.pgno = h.pgno ∧ switchI ≤ t.cursor.index.toNat then
    ⟨right.pgno, t.cursor.index - BitVec.ofNat 32 count⟩
  else t.cursor

/-- `_bt_dopsplit`, of the current page `h`. -/
def dopsplit (t : Tree) (h left right : Page) : Except Failure Split := do
  let freespc : ℤ := (t.psize : ℤ) - linpOffset
  let (left, next, switchI) ← fillLeft t h freespc h.items 0 ⟨left, t.psize, 0, freespc⟩ none
  let m ← fillRight h freespc (h.items.drop next) ⟨right, t.psize, 0, 2 * freespc⟩
  return ⟨left, m.page, fixCursor t h m.page switchI m.index⟩

/-! ## Pages -/

/-- The space that the data of items take. -/
def used (leaf : Bool) (l : List Datum) : ℕ := (l.map fun d => longalign (datumSize leaf d)).sum

/-- The space that items take, with their places in `h_linp`. -/
def cost (leaf : Bool) (l : List Datum) : ℕ := used leaf l + indexSize * l.length

/-- Items one below the other from the offset `top` down. -/
def layout (leaf : Bool) : ℕ → List Datum → List (ℕ × Datum)
  | _, [] => []
  | top, d :: l =>
    let dest := top - longalign (datumSize leaf d)
    (dest, d) :: layout leaf dest l

variable {t : Tree} {h left right p : Page} {leaf : Bool} {psize top i : ℕ} {d e : Datum}
  {l r rest : List Datum} {m : Fill} {freespc : ℤ} {key : Key}

theorem length_layout : (layout leaf top l).length = l.length := by
  induction l generalizing top with
  | nil => rfl
  | cons d l ih => rw [layout, List.length_cons, ih, List.length_cons]

/-- The page holds the items, from its end down. -/
structure Holds (psize : ℕ) (leaf : Bool) (p : Page) (l : List Datum) : Prop where
  lower : p.lower = linpOffset + indexSize * l.length
  upper : p.upper + used leaf l = psize
  linp : p.linp.take l.length = layout leaf psize l

@[simp] theorem used_nil : used leaf [] = 0 := rfl

@[simp] theorem used_cons : used leaf (d :: l) = longalign (datumSize leaf d) + used leaf l := by
  rw [used, List.map_cons, List.sum_cons, used]

@[simp] theorem used_append : used leaf (l ++ r) = used leaf l + used leaf r := by
  rw [used, List.map_append, List.sum_append, used, used]

@[simp] theorem cost_nil : cost leaf [] = 0 := rfl

theorem cost_cons :
    cost leaf (d :: l) = longalign (datumSize leaf d) + indexSize + cost leaf l := by
  rw [cost, used_cons, cost, List.length_cons]
  ring

theorem cost_append : cost leaf (l ++ r) = cost leaf l + cost leaf r := by
  rw [cost, used_append, cost, cost, List.length_append]
  ring

theorem map_layout : (layout leaf top l).map Prod.snd = l := by
  induction l generalizing top with
  | nil => rfl
  | cons d l ih => rw [layout, List.map_cons, ih]

theorem layout_take : layout leaf top (l ++ r) =
    layout leaf top l ++ layout leaf (top - used leaf l) r := by
  induction l generalizing top with
  | nil => rfl
  | cons e l ih =>
    rw [List.cons_append, layout, layout, ih, used_cons, List.cons_append, Nat.sub_sub]

theorem layout_concat : layout leaf top (l ++ [d]) =
    layout leaf top l ++ [(top - used leaf l - longalign (datumSize leaf d), d)] := by
  rw [layout_take]
  rfl

theorem Holds.nextindex (hp : Holds psize leaf p l) : p.nextindex = l.length := by
  rw [Page.nextindex, hp.lower, Nat.add_sub_cancel_left, indexSize,
    Nat.mul_div_cancel_left _ (by norm_num)]

theorem Holds.items (hp : Holds psize leaf p l) : p.items = l := by
  rw [Page.items, hp.nextindex, hp.linp, map_layout]

/-- A page that is being filled: it holds the items so far and no others. -/
structure Filling (psize : ℕ) (leaf : Bool) (l : List Datum) (m : Fill) : Prop where
  holds : Holds psize leaf m.page l
  length : m.page.linp.length = l.length
  dest : m.dest = m.page.upper
  index : m.index = l.length

theorem Filling.start (hlower : p.lower = linpOffset) (hupper : p.upper = psize)
    (hlinp : p.linp = []) (n : ℤ) : Filling psize leaf [] ⟨p, psize, 0, n⟩ :=
  ⟨⟨hlower, hupper, rfl⟩, by rw [hlinp]; rfl, hupper.symm, rfl⟩

theorem Filling.put (hm : Filling psize leaf l m) (hle : used leaf (l ++ [d]) ≤ psize) :
    Filling psize leaf (l ++ [d]) (m.put leaf d) := by
  have hupper := hm.holds.upper
  rw [used_append, used_cons, used_nil, add_zero] at hle
  have hdest : m.dest - longalign (datumSize leaf d) =
      psize - used leaf l - longalign (datumSize leaf d) := by
    rw [hm.dest]
    omega
  have hlinp : m.page.linp = layout leaf psize l := by
    rw [← hm.holds.linp, ← hm.length, List.take_length]
  have htake : m.page.linp.take m.index = layout leaf psize l := by
    rw [hm.index, hm.holds.linp]
  refine ⟨⟨?_, ?_, ?_⟩, ?_, rfl, ?_⟩
  · rw [Fill.put]
    dsimp only
    rw [hm.holds.lower, List.length_append, List.length_singleton, mul_add, mul_one, add_assoc]
  · rw [Fill.put]
    dsimp only
    rw [used_append, used_cons, used_nil, hm.dest]
    omega
  · rw [Fill.put]
    dsimp only
    rw [htake, layout_concat, hdest, List.take_of_length_le]
    rw [List.length_append, List.length_append, length_layout]
    rfl
  · rw [Fill.put]
    dsimp only
    rw [htake, List.length_append, List.length_append, length_layout]
    rfl
  · rw [Fill.put]
    dsimp only
    rw [hm.index, List.length_append]
    rfl

/-- The items that were moved after the page was saved are no longer on it. -/
theorem Filling.back (hm : Filling psize leaf (l ++ r) m) (n : ℕ)
    (hn : n + used leaf l = psize) : Holds psize leaf
      { m.page with lower := linpOffset + indexSize * l.length, upper := n } l := by
  refine ⟨rfl, hn, ?_⟩
  have hlinp : m.page.linp = layout leaf psize (l ++ r) := by
    rw [← hm.holds.linp, ← hm.length, List.take_length]
  dsimp only
  rw [hlinp, layout_take, List.take_left' length_layout]

/-! ## The right page -/

/-- What the right page may get does not take half of twice the space. -/
theorem fillRight_fills (hm : Filling psize leaf l m) (hleaf : h.leaf = leaf)
    (hbytes : m.nbytes = 2 * freespc - cost leaf l) (hcost : (cost leaf (l ++ rest) : ℤ) ≤ freespc)
    (hpsize : cost leaf (l ++ rest) ≤ psize) :
    ∃ m', fillRight h freespc rest m = .ok m' ∧ Filling psize leaf (l ++ rest) m' ∧
      m'.page.pgno = m.page.pgno := by
  induction rest generalizing l m with
  | nil =>
    refine ⟨m, rfl, ?_, rfl⟩
    rw [List.append_nil]
    exact hm
  | cons d rest ih =>
    have hsplit : l ++ d :: rest = (l ++ [d]) ++ rest := by rw [List.append_assoc]; rfl
    rw [hsplit] at hcost hpsize ⊢
    have hle : cost leaf (l ++ [d]) ≤ cost leaf ((l ++ [d]) ++ rest) := by
      rw [@cost_append leaf (l ++ [d])]
      exact Nat.le_add_right _ _
    have hput : Filling psize leaf (l ++ [d]) (m.put leaf d) := by
      apply hm.put
      rw [cost] at hle
      omega
    have hbytes' : (m.put leaf d).nbytes = 2 * freespc - cost leaf (l ++ [d]) := by
      rw [Fill.put]
      dsimp only
      rw [hbytes, cost_append, cost_cons, cost_nil]
      push_cast
      ring
    obtain ⟨m', hok, hfill, hpgno⟩ := ih hput hbytes' hcost hpsize
    refine ⟨m', ?_, hfill, hpgno⟩
    -- `nbytes` began at twice the space, so that the test for half of it fails each time.
    rw [fillRight, hleaf, if_neg]
    · exact hok
    · rw [hbytes']
      omega

/-! ## The left page -/

/-- The items have the same key. -/
def SameKey (t : Tree) (d e : Datum) : Prop :=
  ∃ k k', t.key d = some k ∧ t.key e = some k' ∧ t.compare k k' = 0

/-- The lists part between different keys. -/
def Apart (t : Tree) (l r : List Datum) : Prop :=
  ∃ a d e b, l = a ++ [d] ∧ r = e :: b ∧ ¬SameKey t d e

/-- What is saved of the items so far: the last ones, from `b` on, have the same key, and the page
was saved in front of them. -/
structure Saved (t : Tree) (psize : ℕ) (leaf : Bool) (s : Save) (a b : List Datum) : Prop where
  index : s.index = a.length
  lower : s.lower = linpOffset + indexSize * a.length
  upper : s.upper + used leaf a = psize
  run : b.IsChain (SameKey t)
  apart : a = [] ∨ Apart t a b
  last : ∃ c d, b = c ++ [d] ∧ t.key d = some s.key

theorem saved_first (hm : Filling psize leaf [] m) (hkey : t.key d = some key) :
    Saved t psize leaf (saved t h m i d key none) [] [d] :=
  ⟨rfl, hm.holds.lower, hm.holds.upper, List.isChain_singleton d, .inl rfl, [], d, rfl, hkey⟩

theorem saved_next {a b : List Datum} {s : Save} (hm : Filling psize leaf (a ++ b) m)
    (hs : Saved t psize leaf s a b) (hi : i = (a ++ b).length) (hkey : t.key d = some key) :
    ∃ a' b', a ++ b ++ [d] = a' ++ b' ∧
      Saved t psize leaf (saved t h m i d key (some s)) a' b' := by
  obtain ⟨c, e, hb, hlast⟩ := hs.last
  have hpos : i ≠ 0 := by
    rw [hi, hb, List.length_append, List.length_append, List.length_singleton]
    omega
  have hcmp : btCmp t h s.key i d = t.compare s.key key := by
    rw [btCmp, if_neg (fun hzero => hpos hzero.2.2), hkey]
  rw [saved, hcmp]
  by_cases hsame : t.compare s.key key = 0
  · -- The run goes on.
    rw [if_neg (not_not.mpr hsame)]
    refine ⟨a, b ++ [d], by rw [List.append_assoc], hs.index, hs.lower, hs.upper, ?_, ?_, b, d, rfl,
      hkey⟩
    · refine hs.run.append (List.isChain_singleton d) fun x hx y hy => ?_
      rw [hb, List.getLast?_concat] at hx
      cases hx
      cases hy
      exact ⟨_, _, hlast, hkey, hsame⟩
    · obtain ha | ⟨a', d', e', b', ha, hb', hne⟩ := hs.apart
      · exact .inl ha
      · exact .inr ⟨a', d', e', b' ++ [d], ha, by rw [hb']; rfl, hne⟩
  · -- The item is the first of another run.
    rw [if_pos hsame]
    refine ⟨a ++ b, [d], rfl, hi, hm.holds.lower, hm.holds.upper,
      List.isChain_singleton d, .inr ⟨a ++ c, e, d, [], ?_, rfl, ?_⟩, [], d, rfl, hkey⟩
    · rw [hb, List.append_assoc]
    · rintro ⟨k, k', hk, hk', hzero⟩
      cases hlast.symm.trans hk
      cases hkey.symm.trans hk'
      exact hsame hzero

/-- Nothing is saved before the first item. -/
def SaveFits (t : Tree) (psize : ℕ) (leaf : Bool) (save : Option Save) (l : List Datum) : Prop :=
  (save = none ∧ l = []) ∨ ∃ s a b, save = some s ∧ l = a ++ b ∧ Saved t psize leaf s a b

theorem saved_spec {save : Option Save} (hm : Filling psize leaf l m)
    (hs : SaveFits t psize leaf save l) (hi : i = l.length) (hkey : t.key d = some key) :
    ∃ a b, l ++ [d] = a ++ b ∧ Saved t psize leaf (saved t h m i d key save) a b := by
  obtain ⟨rfl, rfl⟩ | ⟨s, a, b, rfl, rfl, hs⟩ := hs
  · exact ⟨[], [d], rfl, saved_first hm hkey⟩
  · exact saved_next hm hs hi hkey

/-- The left page takes some of the items, up to where the keys change, or some of those that have
the key of the first item. -/
structure Filled (t : Tree) (psize : ℕ) (leaf : Bool) (p : Page) (next switchI : ℕ)
    (l r : List Datum) : Prop where
  holds : Holds psize leaf p l
  next : next = l.length
  switch : l.length ≤ switchI
  nonempty : l ≠ []
  apart : Apart t l r ∨ l.IsChain (SameKey t)

theorem fillLeft_fills {save : Option Save} (hm : Filling psize leaf l m) (hleaf : h.leaf = leaf)
    (hs : SaveFits t psize leaf save l) (hi : i = l.length)
    (hbytes : m.nbytes = freespc - cost leaf l) (hpsize : cost leaf (l ++ rest) ≤ psize)
    (hkeys : ∀ d ∈ rest, (t.key d).isSome) (hbegin : 2 * (cost leaf l : ℤ) ≤ freespc)
    (hend : freespc < 2 * (cost leaf (l ++ rest) : ℤ)) :
    ∃ p next switchI l' r', fillLeft t h freespc rest i m save = .ok (p, next, switchI) ∧
      l ++ rest = l' ++ r' ∧ p.pgno = m.page.pgno ∧ Filled t psize leaf p next switchI l' r' := by
  induction rest generalizing l m save i with
  | nil =>
    rw [List.append_nil] at hend
    omega
  | cons d rest ih =>
    have hsplit : l ++ d :: rest = (l ++ [d]) ++ rest := by rw [List.append_assoc]; rfl
    rw [hsplit] at hpsize hend ⊢
    obtain ⟨key, hkey⟩ := Option.isSome_iff_exists.mp (hkeys d List.mem_cons_self)
    obtain ⟨a, b, hab, hsaved⟩ := @saved_spec t h leaf psize i d l m key save hm hs hi hkey
    have hle : cost leaf (l ++ [d]) ≤ cost leaf ((l ++ [d]) ++ rest) := by
      rw [@cost_append leaf (l ++ [d])]
      exact Nat.le_add_right _ _
    have hput : Filling psize leaf (l ++ [d]) (m.put leaf d) := by
      apply hm.put
      rw [cost] at hle
      omega
    have hbytes' : (m.put leaf d).nbytes = freespc - cost leaf (l ++ [d]) := by
      rw [Fill.put]
      dsimp only
      rw [hbytes, cost_append, cost_cons, cost_nil]
      push_cast
      ring
    rw [fillLeft, hkey]
    dsimp only
    rw [hleaf, hbytes']
    split_ifs with hhalf hback
    · -- The last run goes to the right page as a whole.
      have ha : a ≠ [] := by
        rintro rfl
        rw [hsaved.index] at hback
        exact absurd hback (lt_irrefl 0)
      rw [hab] at hput
      refine ⟨_, _, _, a, b ++ rest, rfl, by rw [hab, List.append_assoc], rfl, ?_, hsaved.index, ?_,
        ha, .inl ?_⟩
      · rw [hsaved.lower]
        exact hput.back _ hsaved.upper
      · rw [hput.index, List.length_append]
        exact Nat.le_add_right _ _
      · obtain ⟨a', d', e', b', ha', hb', hne⟩ := hsaved.apart.resolve_left ha
        exact ⟨a', d', e', b' ++ rest, ha', by rw [hb']; rfl, hne⟩
    · -- All the items so far have the same key.
      have ha : a = [] := by
        rw [hsaved.index, gt_iff_lt, not_lt, Nat.le_zero] at hback
        exact List.length_eq_zero_iff.mp hback
      rw [ha, List.nil_append] at hab
      refine ⟨_, _, _, l ++ [d], rest, rfl, rfl, rfl, hput.holds, ?_, ?_, by simp, .inr ?_⟩
      · rw [hi, List.length_append, List.length_singleton]
      · rw [hput.index]
      · rw [hab]
        exact hsaved.run
    · refine ih hput (.inr ⟨_, a, b, rfl, hab, hsaved⟩) ?_ hbytes' hpsize
        (fun e he => hkeys e (List.mem_cons_of_mem d he)) (by omega) hend
      rw [hi, List.length_append, List.length_singleton]

/-! ## Full pages -/

/-- An item that is not too big for a page: the sizes are below that of `TOOBIG`. -/
def Legal (psize : ℕ) (leaf : Bool) (d : Datum) : Prop :=
  d.ksize < psize / 5 ∧ (leaf → d.dsize < psize / 5)

instance (psize : ℕ) (leaf : Bool) (d : Datum) : Decidable (Legal psize leaf d) :=
  inferInstanceAs (Decidable (_ ∧ _))

/-- A new page, of `_bt_allocpg`. -/
structure Empty (psize : ℕ) (p : Page) : Prop where
  lower : p.lower = linpOffset
  upper : p.upper = psize
  linp : p.linp = []

/-- A page of legal items, whose keys can be read, that lacks room for another legal item. -/
structure Full (t : Tree) (h : Page) : Prop where
  psize : MINPSIZE ≤ t.psize
  legal : ∀ d ∈ h.items, Legal t.psize h.leaf d
  keys : ∀ d ∈ h.items, (t.key d).isSome
  lower : h.lower = linpOffset + indexSize * h.items.length
  upper : h.upper + used h.leaf h.items = t.psize
  le : h.lower ≤ h.upper
  room : ∃ d, Legal t.psize h.leaf d ∧
    h.upper - h.lower < longalign (datumSize h.leaf d) + indexSize

/-- What becomes of the items of a page and of the cursor. -/
structure Splits (t : Tree) (h left right : Page) (s : Split) : Prop where
  pgno : s.left.pgno = left.pgno ∧ s.right.pgno = right.pgno
  same : s.left.items ++ s.right.items = h.items
  left : Holds t.psize h.leaf s.left s.left.items
  right : Holds t.psize h.leaf s.right s.right.items
  fits : s.left.lower ≤ s.left.upper ∧ s.right.lower ≤ s.right.upper
  left_nonempty : s.left.items ≠ []
  right_nonempty : ¬h.items.IsChain (SameKey t) → s.right.items ≠ []
  apart : Apart t s.left.items s.right.items ∨ s.left.items.IsChain (SameKey t)
  cursor : ¬t.seqinit ∨ t.cursor.pgno ≠ h.pgno ∨ t.cursor.index.toNat < s.left.items.length →
    s.cursor = t.cursor

theorem longalign_le (n : ℕ) : longalign n ≤ n + 3 := Nat.div_mul_le_self (n + 3) 4

/-- A full page is more than half full. -/
theorem Full.half (hf : Full t h) :
    (t.psize : ℤ) - linpOffset < 2 * (cost h.leaf h.items : ℤ) := by
  obtain ⟨d, ⟨hkey, hdata⟩, hroom⟩ := hf.room
  have hle := hf.le
  have hlower := hf.lower
  have hupper := hf.upper
  have hpsize := hf.psize
  have halign := longalign_le (datumSize h.leaf d)
  have hsize : datumSize h.leaf d ≤ 2 * (t.psize / 5) + 13 := by
    rw [datumSize, fixedsize]
    split_ifs with hleaf
    · have hdata := hdata hleaf
      omega
    · omega
  simp only [cost, linpOffset, indexSize, MINPSIZE] at *
  omega

theorem Holds.fits {n : ℕ} (hp : Holds n leaf p l) (hcost : linpOffset + cost leaf l ≤ n) :
    p.lower ≤ p.upper := by
  have hupper := hp.upper
  rw [cost] at hcost
  rw [hp.lower]
  omega

/-- A full page is split, and only a run of items that begins with the page may be divided. -/
theorem dopsplit_splits (t : Tree) (h left right : Page) (hf : Full t h)
    (hl : Empty t.psize left) (hr : Empty t.psize right) :
    ∃ s, dopsplit t h left right = .ok s ∧ Splits t h left right s := by
  have hcost : linpOffset + cost h.leaf h.items ≤ t.psize := by
    have hle := hf.le
    have hupper := hf.upper
    rw [hf.lower] at hle
    rw [cost]
    omega
  have hhalf := hf.half
  obtain ⟨p, next, switchI, l, r, hok, hsplit, hpgno, hfill⟩ :=
    @fillLeft_fills t h h.leaf t.psize 0 [] h.items ⟨left, t.psize, 0, (t.psize : ℤ) - linpOffset⟩
      ((t.psize : ℤ) - linpOffset) none (Filling.start hl.lower hl.upper hl.linp _) rfl
      (.inl ⟨rfl, rfl⟩) rfl (by simp) (by rw [List.nil_append]; omega) hf.keys
      (by rw [cost_nil]; omega) hhalf
  rw [List.nil_append] at hsplit
  have hdrop : h.items.drop next = r := by
    rw [hsplit, hfill.next, List.drop_left]
  have hsum : cost h.leaf h.items = cost h.leaf l + cost h.leaf r := by rw [hsplit, cost_append]
  obtain ⟨m, hok', hm, hpgno'⟩ :=
    @fillRight_fills h h.leaf t.psize [] r ⟨right, t.psize, 0, 2 * ((t.psize : ℤ) - linpOffset)⟩
      ((t.psize : ℤ) - linpOffset) (Filling.start hr.lower hr.upper hr.linp _) rfl
      (by rw [cost_nil]; simp) (by rw [List.nil_append]; omega) (by rw [List.nil_append]; omega)
  rw [List.nil_append] at hm
  refine ⟨⟨p, m.page, fixCursor t h m.page switchI m.index⟩, ?_, ?_⟩
  · simp only [dopsplit, hok, hdrop, hok', bind, Except.bind, pure, Except.pure]
  · have hleft := hfill.holds.items
    have hright := hm.holds.items
    refine ⟨⟨hpgno, hpgno'⟩, ?_, ?_, ?_,
      ⟨hfill.holds.fits (by omega), hm.holds.fits (by omega)⟩, ?_, ?_, ?_, ?_⟩
    · rw [hleft, hright, hsplit]
    · rw [hleft]
      exact hfill.holds
    · rw [hright]
      exact hm.holds
    · rw [hleft]
      exact hfill.nonempty
    · intro hdiffer hnil
      rw [hright] at hnil
      obtain ⟨a, d, e, b, -, hb, -⟩ | hrun := hfill.apart
      · rw [hnil] at hb
        cases hb
      · rw [hsplit, hnil, List.append_nil] at hdiffer
        exact hdiffer hrun
    · rw [hleft, hright]
      exact hfill.apart
    · rw [hleft]
      intro hcursor
      dsimp only
      rw [fixCursor, if_neg]
      rintro ⟨hseq, hpage, hindex⟩
      have hswitch := hfill.switch
      obtain hno | hother | hbefore := hcursor
      · exact hno hseq
      · exact hother hpage
      · omega

section Examples

def strcmp : Key → Key → ℤ
  | [], [] => 0
  | [], b :: _ => -b.toNat
  | a :: _, [] => a.toNat
  | a :: l, b :: r => if a = b then (if a = 0 then 0 else strcmp l r) else (a.toNat : ℤ) - b.toNat

/-- An item with a string of one character as its key, where key and data have `n` bytes. -/
def oneChar (x : BitVec 8) (n : ℕ) : Datum := ⟨n, n, false, x :: List.replicate (2 * n - 1) 0⟩

def leafPage (l : List Datum) : Page :=
  ⟨2, 1, true, linpOffset + indexSize * l.length, 512 - used true l, layout true 512 l⟩

def newPage (pgno : ℕ) : Page := ⟨pgno, 0, true, linpOffset, 512, []⟩

/-- Strings for keys, and a cursor on the page. -/
def strTree (index : BitVec 32) : Tree := ⟨512, strcmp, fun _ => none, true, ⟨2, index⟩⟩

/-- Four items with different keys. -/
def fourKeys : Page := leafPage [oneChar 1 50, oneChar 2 50, oneChar 3 50, oneChar 4 50]

theorem fourKeys_full : Full (strTree 1) fourKeys :=
  ⟨by decide, by decide, by decide, by decide, by decide, by decide, oneChar 1 50, by decide,
    by decide⟩

/-- Two items come to each page. -/
theorem dopsplit_splits_fourKeys : ∃ s,
    dopsplit (strTree 1) fourKeys (newPage 2) (newPage 3) = .ok s ∧
      Splits (strTree 1) fourKeys (newPage 2) (newPage 3) s :=
  dopsplit_splits (strTree 1) fourKeys (newPage 2) (newPage 3) fourKeys_full ⟨rfl, rfl, rfl⟩
    ⟨rfl, rfl, rfl⟩

/-- Four items, or two large ones, with the same key. -/
def oneKey : Page := leafPage (List.replicate 4 (oneChar 1 50))

def twoLarge : Page := leafPage (List.replicate 2 (oneChar 1 100))

theorem oneKey_full : Full (strTree 0) oneKey :=
  ⟨by decide, by decide, by decide, by decide, by decide, by decide, oneChar 1 50, by decide,
    by decide⟩

theorem twoLarge_full : Full (strTree 0) twoLarge :=
  ⟨by decide, by decide, by decide, by decide, by decide, by decide, oneChar 1 100, by decide,
    by decide⟩

/-- A run of equal keys that begins with the page is divided; two large items leave the right page
empty; and the cursor stays with a page that its item has left. -/
theorem dopsplit_divides :
    (Full (strTree 0) oneKey ∧ ∃ s a d e b,
      dopsplit (strTree 0) oneKey (newPage 2) (newPage 3) = .ok s ∧
        s.left.items = a ++ [d] ∧ s.right.items = e :: b ∧ SameKey (strTree 0) d e) ∧
    (Full (strTree 0) twoLarge ∧ ∃ s,
      dopsplit (strTree 0) twoLarge (newPage 2) (newPage 3) = .ok s ∧ s.right.items = []) ∧
    ∃ s, dopsplit (strTree 2) fourKeys (newPage 2) (newPage 3) = .ok s ∧
      s.left.items.length = 2 ∧ s.cursor = ⟨2, 2⟩ := by
  refine ⟨⟨oneKey_full, _, List.replicate 2 (oneChar 1 50), oneChar 1 50, oneChar 1 50, [], rfl, ?_,
    ?_, _, _, rfl, rfl, ?_⟩, ⟨twoLarge_full, _, rfl, ?_⟩, _, rfl, ?_, ?_⟩
  all_goals decide

end Examples

end BTree
