import Mathlib.Data.List.Nodup
import Mathlib.Logic.Function.Basic
import Mathlib.Tactic.Common

/-!
# Linked lists

Lists of nodes linked by pointers, edited through the place that holds the pointer to a node:
the head of a list, or the link of the node before it. A list is described by its nodes in
order, each with the value stored in it.

## Main definitions

* `Ref`, `Links`: places that hold pointers, and what they hold
* `Lst val next p l`: from the pointer `p`, the nodes of `l` follow, and then a null pointer
* `Path val L r l`, `last r l`: from the place `r`, the nodes of `l` follow; the place after them

## Main results

* `lst_append`: a list is a path and the list behind it
* `Lst.unique`, `Lst.nodup`: a list is determined by its first pointer, and has no node twice
* `Lst.insert`, `Lst.unlink`, `Lst.replace`: the three edits through the place before a node
* `Lst.store`, `Lst.extend`: storing a value in a node; hanging a list behind another
-/

namespace LinkedList

variable {ι α β : Type}

/-- A place that holds a pointer. -/
inductive Ref (ι α : Type) where
  | head (i : ι)
  | next (a : α)
  deriving DecidableEq

/-- The heads of lists, and the links of nodes. -/
@[ext] structure Links (ι α : Type) where
  head : ι → Option α
  next : α → Option α

namespace Links

def get (L : Links ι α) : Ref ι α → Option α
  | .head i => L.head i
  | .next a => L.next a

@[simp] theorem get_head (L : Links ι α) (i : ι) : L.get (.head i) = L.head i := rfl

@[simp] theorem get_next (L : Links ι α) (a : α) : L.get (.next a) = L.next a := rfl

variable [DecidableEq ι] [DecidableEq α]

def set (L : Links ι α) : Ref ι α → Option α → Links ι α
  | .head i, p => { L with head := Function.update L.head i p }
  | .next a, p => { L with next := Function.update L.next a p }

@[simp] theorem get_set_same (L : Links ι α) (r : Ref ι α) (p : Option α) :
    (L.set r p).get r = p := by
  cases r <;> simp [set, get]

@[simp] theorem set_set (L : Links ι α) (r : Ref ι α) (p q : Option α) :
    (L.set r p).set r q = L.set r q := by
  cases r <;> simp [set]

theorem set_comm {r r' : Ref ι α} (h : r ≠ r') (L : Links ι α) (p q : Option α) :
    (L.set r p).set r' q = (L.set r' q).set r p := by
  cases r <;> cases r' <;> simp only [set, Links.mk.injEq, true_and, and_true]
  · exact Function.update_comm (fun he => h (by rw [he])) _ _ _
  · exact Function.update_comm (fun he => h (by rw [he])) _ _ _

theorem get_set_of_ne {L : Links ι α} {r r' : Ref ι α} (h : r' ≠ r) (p : Option α) :
    (L.set r p).get r' = L.get r' := by
  cases r <;> cases r' <;> simp_all [set, get]

end Links

variable {val val' : α → Option β} {L L' : Links ι α} {r : Ref ι α} {p : Option α} {a b : α}
  {x y : β} {l pre rest : List (α × β)}

/-- The addresses of nodes. -/
abbrev addrs (l : List (α × β)) : List α := l.map Prod.fst

theorem mem_addrs : a ∈ addrs l ↔ ∃ x, (a, x) ∈ l := by
  simp [addrs]

/-- From the pointer `p`, the nodes of the list follow, and then a null pointer. -/
def Lst (val : α → Option β) (next : α → Option α) : Option α → List (α × β) → Prop
  | p, [] => p = none
  | p, (a, x) :: l => p = some a ∧ val a = some x ∧ Lst val next (next a) l

/-- From the place `r`, the nodes of the list follow. -/
def Path (val : α → Option β) (L : Links ι α) : Ref ι α → List (α × β) → Prop
  | _, [] => True
  | r, (a, x) :: l => L.get r = some a ∧ val a = some x ∧ Path val L (.next a) l

/-- The place after the nodes of a path from `r`. -/
def last : Ref ι α → List (α × β) → Ref ι α
  | r, [] => r
  | _, (a, _) :: l => last (.next a) l

@[simp] theorem last_nil : last r ([] : List (α × β)) = r := rfl

@[simp] theorem last_cons : last r ((a, x) :: l) = last (.next a) l := rfl

@[simp] theorem last_concat : last r (l ++ [(a, x)]) = .next a := by
  induction l generalizing r with
  | nil => rfl
  | cons n l ih => exact ih

theorem last_append {l' : List (α × β)} : last r (l ++ l') = last (last r l) l' := by
  induction l generalizing r with
  | nil => rfl
  | cons n l ih => exact ih

theorem last_mem (a : α) (x : β) (l : List (α × β)) :
    ∃ b ∈ addrs ((a, x) :: l), last (.next a : Ref ι α) l = .next b := by
  induction l generalizing a x with
  | nil => exact ⟨a, by simp, rfl⟩
  | cons n l ih =>
    obtain ⟨b, hb, he⟩ := ih n.1 n.2
    exact ⟨b, List.mem_cons_of_mem _ hb, he⟩

/-- A list is a path and the list behind it. -/
theorem lst_append : Lst val L.next (L.get r) (pre ++ rest) ↔
    Path val L r pre ∧ Lst val L.next (L.get (last r pre)) rest := by
  induction pre generalizing r with
  | nil => simp [Path]
  | cons n pre ih =>
    obtain ⟨a, x⟩ := n
    rw [List.cons_append, Lst, Path, and_assoc, and_assoc]
    exact and_congr_right fun _ => and_congr_right fun _ => ih (r := .next a)

/-- The pointer to the first node. -/
def first : List (α × β) → Option α
  | [] => none
  | (a, _) :: _ => some a

theorem Lst.eq_first {next : α → Option α} (h : Lst val next p l) : p = first l := by
  cases l with
  | nil => exact h
  | cons n l => exact h.1

/-- A list is determined by its first pointer. -/
theorem Lst.unique {next : α → Option α} {l' : List (α × β)} (h : Lst val next p l)
    (h' : Lst val next p l') : l = l' := by
  induction l generalizing p l' with
  | nil =>
    cases l' with
    | nil => rfl
    | cons n l' =>
      obtain ⟨rfl, -⟩ := h'
      cases h
  | cons n l ih =>
    obtain ⟨a, x⟩ := n
    obtain ⟨rfl, hx, hl⟩ := h
    cases l' with
    | nil => cases h'
    | cons n l' =>
      obtain ⟨b, y⟩ := n
      obtain ⟨hb, hy, hl'⟩ := h'
      obtain rfl : a = b := Option.some.inj hb
      obtain rfl : x = y := Option.some.inj (hx.symm.trans hy)
      rw [ih hl hl']

theorem Lst.of_append {next : α → Option α} (h : Lst val next p (pre ++ (a, x) :: rest)) :
    val a = some x ∧ Lst val next (next a) rest := by
  induction pre generalizing p with
  | nil => exact h.2
  | cons n pre ih => exact ih h.2.2

/-- No node is met twice: the same list would follow it both times. -/
theorem Lst.nodup {next : α → Option α} (h : Lst val next p l) : (addrs l).Nodup := by
  induction l generalizing p with
  | nil => exact List.nodup_nil
  | cons n l ih =>
    obtain ⟨a, x⟩ := n
    refine List.nodup_cons.mpr ⟨fun ha => ?_, ih h.2.2⟩
    obtain ⟨⟨b, y⟩, hy, rfl⟩ := List.mem_map.mp ha
    obtain ⟨pre, post, rfl⟩ := List.append_of_mem hy
    have := congrArg List.length (h.2.2.unique (h.2.2.of_append).2)
    simp only [List.length_append, List.length_cons] at this
    omega

theorem Lst.val_eq {next : α → Option α} (h : Lst val next p l) (hx : (a, x) ∈ l) :
    val a = some x := by
  obtain ⟨pre, post, rfl⟩ := List.append_of_mem hx
  exact h.of_append.1

theorem Lst.congr {next next' : α → Option α} (h : Lst val next p l)
    (hn : ∀ a ∈ addrs l, next' a = next a) (hv : ∀ a ∈ addrs l, val' a = val a) :
    Lst val' next' p l := by
  induction l generalizing p with
  | nil => exact h
  | cons n l ih =>
    obtain ⟨a, x⟩ := n
    obtain ⟨hp, hx, hl⟩ := h
    refine ⟨hp, by rw [hv a (by simp), hx], ?_⟩
    rw [hn a (by simp)]
    exact ih hl (fun b hb => hn b (List.mem_cons_of_mem _ hb))
      fun b hb => hv b (List.mem_cons_of_mem _ hb)

/-- The place after a path is none of the links behind it. -/
theorem last_ne_next (hr : ∀ a ∈ addrs rest, r ≠ .next a) (hnd : (addrs (l ++ rest)).Nodup)
    (ha : a ∈ addrs rest) : last r l ≠ .next a := by
  cases l with
  | nil => exact hr a ha
  | cons n l =>
    obtain ⟨b, y⟩ := n
    obtain ⟨c, hc, he⟩ := last_mem (ι := ι) b y l
    rw [last_cons, he]
    intro h
    obtain rfl := Ref.next.inj h
    rw [addrs, List.map_append, List.nodup_append] at hnd
    exact hnd.2.2 c hc c ha rfl

/-- Where a pointer to a new node is written, no link of the list is changed but the last. -/
theorem last_ne_next_new {i : ι} (hb : b ∉ addrs pre) : last (.head i : Ref ι α) pre ≠ .next b := by
  cases pre with
  | nil => exact nofun
  | cons n pre =>
    obtain ⟨c, z⟩ := n
    obtain ⟨d, hd, he⟩ := last_mem (ι := ι) c z pre
    rw [last_cons, he]
    intro hdb
    rw [Ref.next.inj hdb] at hd
    exact hb hd

/-- The last node of a list that begins behind the node `a`. -/
def lastOf (a : α) : List (α × β) → α
  | [] => a
  | (b, _) :: l => lastOf b l

theorem lastOf_eq_or_mem (a : α) (l : List (α × β)) : lastOf a l = a ∨ lastOf a l ∈ addrs l := by
  induction l generalizing a with
  | nil => exact .inl rfl
  | cons n l ih =>
    right
    rcases ih n.1 with h | h
    · rw [lastOf, h]
      exact List.mem_cons_self
    · exact List.mem_cons_of_mem _ h

section Edit

variable [DecidableEq ι] [DecidableEq α]

theorem next_set_of_ne {r : Ref ι α} (h : r ≠ .next a) (p : Option α) :
    (L.set r p).next a = L.next a :=
  Links.get_set_of_ne h.symm p

/-- Writing to a place that is no link of the list. -/
theorem Lst.set (h : Lst val L.next p l) (hr : ∀ a ∈ addrs l, r ≠ .next a) (q : Option α) :
    Lst val (L.set r q).next p l :=
  h.congr (fun a ha => next_set_of_ne (hr a ha) q) fun _ _ => rfl

/-- Writing to a place off the path. -/
theorem Path.set_of_ne {s : Ref ι α} (h : Path val L r l) (hr : s ≠ r)
    (hl : ∀ a ∈ addrs l, s ≠ .next a) (q : Option α) : Path val (L.set s q) r l := by
  induction l generalizing r with
  | nil => trivial
  | cons n l ih =>
    obtain ⟨a, x⟩ := n
    obtain ⟨hp, hx, hl'⟩ := h
    refine ⟨by rw [Links.get_set_of_ne hr.symm, hp], hx, ih hl' (hl a (by simp)) ?_⟩
    exact fun b hb => hl b (List.mem_cons_of_mem _ hb)

/-- Writing to the place after the path. -/
theorem Path.set_last (h : Path val L r l) (hnd : (addrs l).Nodup)
    (hr : ∀ a ∈ addrs l, r ≠ .next a) (q : Option α) : Path val (L.set (last r l) q) r l := by
  induction l generalizing r with
  | nil => trivial
  | cons n l ih =>
    obtain ⟨a, x⟩ := n
    obtain ⟨hp, hx, hl⟩ := h
    obtain ⟨b, hb, he⟩ := last_mem (ι := ι) a x l
    have hnd' := List.nodup_cons.mp hnd
    refine ⟨?_, hx, ih hl hnd'.2 fun c hc hac => hnd'.1 ?_⟩
    · rw [last_cons, he, Links.get_set_of_ne (hr b hb), hp]
    · rwa [Ref.next.inj hac]

variable {i : ι}

/-- `*prev = b; b->next = p`, where `p` is what `prev` held: the node `b` comes before `rest`. -/
theorem Lst.insert (h : Lst val L.next (L.head i) (pre ++ rest)) (hb : b ∉ addrs (pre ++ rest))
    (hy : val b = some y) :
    Lst val ((L.set (last (.head i) pre) (some b)).set (.next b)
        (L.get (last (.head i) pre))).next
      (((L.set (last (.head i) pre) (some b)).set (.next b) (L.get (last (.head i) pre))).head i)
      (pre ++ (b, y) :: rest) := by
  have hnd := h.nodup
  obtain ⟨hpre, hrest⟩ := lst_append.mp (show Lst val L.next (L.get (.head i)) _ from h)
  have hndpre : (addrs pre).Nodup := by
    rw [addrs, List.map_append] at hnd
    exact (List.nodup_append.mp hnd).1
  have hlast : ∀ a ∈ addrs rest, last (.head i : Ref ι α) pre ≠ .next a := fun a ha =>
    last_ne_next (fun _ _ => nofun) hnd ha
  simp only [addrs, List.map_append, List.mem_append, not_or] at hb
  refine (lst_append (r := .head i)).mpr ⟨?_, ?_, hy, ?_⟩
  · refine (hpre.set_last hndpre (fun _ _ => nofun) _).set_of_ne (s := .next b) nofun
      (fun a ha he => ?_) _
    rw [Ref.next.inj he] at hb
    exact hb.1 ha
  · rw [Links.get_set_of_ne (last_ne_next_new hb.1), Links.get_set_same]
  · have : ((L.set (last (.head i) pre) (some b)).set (.next b)
        (L.get (last (.head i) pre))).next b = L.get (last (.head i) pre) :=
      Links.get_set_same _ (.next b) _
    rw [this]
    refine (hrest.set hlast _).set (r := .next b) (fun a ha he => ?_) _
    rw [Ref.next.inj he] at hb
    exact hb.2 ha

/-- `*prev = a->next`: the node `a` is taken out. -/
theorem Lst.unlink (h : Lst val L.next (L.head i) (pre ++ (a, x) :: rest)) :
    Lst val (L.set (last (.head i) pre) (L.next a)).next
      ((L.set (last (.head i) pre) (L.next a)).head i) (pre ++ rest) := by
  have hnd := h.nodup
  obtain ⟨hpre, -, -, hrest⟩ := lst_append.mp (show Lst val L.next (L.get (.head i)) _ from h)
  have hlast : ∀ b ∈ addrs rest, last (.head i : Ref ι α) pre ≠ .next b := fun b hb =>
    last_ne_next (fun _ _ => nofun) hnd (List.mem_cons_of_mem (a, x).1 hb)
  rw [addrs, List.map_append] at hnd
  refine (lst_append (r := .head i)).mpr ⟨?_, ?_⟩
  · exact hpre.set_last (List.nodup_append.mp hnd).1 (fun _ _ => nofun) _
  · rw [Links.get_set_same]
    exact hrest.set hlast _

/-- `*prev = b; b->next = a->next`: the node `b` takes the place of `a`. -/
theorem Lst.replace (h : Lst val L.next (L.head i) (pre ++ (a, x) :: rest))
    (hb : b ∉ addrs (pre ++ (a, x) :: rest)) (hy : val b = some y) :
    Lst val ((L.set (last (.head i) pre) (some b)).set (.next b) (L.next a)).next
      (((L.set (last (.head i) pre) (some b)).set (.next b) (L.next a)).head i)
      (pre ++ (b, y) :: rest) := by
  have hb' : b ∉ addrs (pre ++ rest) := fun hm => hb (by
    simp only [addrs, List.map_append, List.mem_append, List.map_cons, List.mem_cons] at hm ⊢
    tauto)
  have := h.unlink.insert hb' hy
  rwa [Links.get_set_same, Links.set_set] at this

/-- Storing a value in a node of the list. -/
theorem Lst.store {next : α → Option α} (h : Lst val next p (pre ++ (a, x) :: rest)) (y : β) :
    Lst (Function.update val a (some y)) next p (pre ++ (a, y) :: rest) := by
  have hnd := h.nodup
  rw [addrs, List.map_append, List.map_cons, List.nodup_append] at hnd
  obtain ⟨-, hrest, hne⟩ := hnd
  induction pre generalizing p with
  | nil =>
    obtain ⟨hp, -, hl⟩ := h
    refine ⟨hp, by simp, hl.congr (fun _ _ => rfl) fun b hb => Function.update_of_ne ?_ _ _⟩
    rintro rfl
    exact (List.nodup_cons.mp hrest).1 hb
  | cons n pre ih =>
    obtain ⟨b, z⟩ := n
    obtain ⟨hp, hz, hl⟩ := h
    refine ⟨hp, ?_, ih hl fun c hc => hne c (List.mem_cons_of_mem _ hc)⟩
    rw [Function.update_of_ne (hne b List.mem_cons_self a List.mem_cons_self), hz]

/-- Hanging a list behind the last node of another. -/
theorem Lst.extend {next : α → Option α} {q : Option α} {l' : List (α × β)}
    (h : Lst val next (next a) l) (ha : a ∉ addrs l) (h' : Lst val next q l')
    (hl' : ∀ b ∈ addrs l', b ≠ a ∧ b ∉ addrs l) :
    Lst val (Function.update next (lastOf a l) q) (Function.update next (lastOf a l) q a)
      (l ++ l') := by
  have hnd := h.nodup
  induction l generalizing a with
  | nil =>
    rw [lastOf, Function.update_self]
    exact h'.congr (fun b hb => Function.update_of_ne (hl' b hb).1 _ _) fun _ _ => rfl
  | cons n l ih =>
    obtain ⟨b, y⟩ := n
    obtain ⟨hp, hy, hl⟩ := h
    obtain ⟨hb, hnd⟩ := List.nodup_cons.mp hnd
    have hlast : lastOf b l ≠ a := by
      rcases lastOf_eq_or_mem b l with h | h
      · rw [h]
        rintro rfl
        exact ha List.mem_cons_self
      · rintro rfl
        exact ha (List.mem_cons_of_mem _ h)
    refine ⟨?_, hy, ih hl hb (fun c hc => ?_) hnd⟩
    · rw [lastOf, Function.update_of_ne hlast.symm, hp]
    · have := (hl' c hc).2
      rw [addrs, List.map_cons, List.mem_cons, not_or] at this
      exact this

end Edit

end LinkedList
