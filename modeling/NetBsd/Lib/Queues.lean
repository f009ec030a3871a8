import NetBsd.Lib.InsQueue
import Mathlib.Data.List.Perm.Basic

/-!
# Families of circular queues

Items on queues with heads of their own: each item is on at most one of the queues. The three
functions are those with which kernels edit such queues in place, in their order of reads and
writes.

## Main definitions

* `unlink`, `insertFirst`, `insertLast`: an item leaves its queue, or comes to an end of one
* `Queues q l`: the queue with the head `k` has the items `l k`
* `Tidy q`, `On q k a`: the pointers are those of queues; the item is on the queue of `k`

## Main results

* `Tidy.unlink`, `Tidy.insertFirst`, `Tidy.insertLast`: what they do to the items
* `Tidy.forw_head`: the first item of a queue
-/

namespace InsQueue

/-- A head or an item. -/
inductive Node (κ α : Type) where
  | head (k : κ)
  | item (a : α)
  deriving DecidableEq

section Edit

variable {α : Type} [DecidableEq α] {q q' : Links α} {a b e h : α} {l pre post : List α}

/-- `e->back->forw = e->forw; e->forw->back = e->back`. -/
def unlink (q : Links α) (e : α) : Except Fault (Links α) :=
  match q.back e with
  | none => .error .deref
  | some b =>
    let forw := Function.update q.forw b (q.forw e)
    match forw e with
    | none => .error .deref
    | some a => .ok ⟨forw, Function.update q.back a (q.back e)⟩

/-- `h->forw->back = e; e->forw = h->forw; h->forw = e; e->back = h`. -/
def insertFirst (q : Links α) (e h : α) : Except Fault (Links α) :=
  match q.forw h with
  | none => .error .deref
  | some a => .ok ⟨Function.update (Function.update q.forw e (q.forw h)) h (some e),
      Function.update (Function.update q.back a (some e)) e (some h)⟩

/-- `h->back->forw = e; e->back = h->back; h->back = e; e->forw = h`. -/
def insertLast (q : Links α) (e h : α) : Except Fault (Links α) :=
  match q.back h with
  | none => .error .deref
  | some a => .ok ⟨Function.update (Function.update q.forw a (some e)) e (some h),
      Function.update (Function.update q.back e (q.back h)) h (some e)⟩

/-- Like `remque`, but that the node keeps its pointers. -/
theorem Ring.unlink (hr : Ring q h (pre ++ e :: post)) :
    ∃ q', unlink q e = .ok q' ∧ Ring q' h (pre ++ post) ∧
      ∀ x ∉ h :: (pre ++ e :: post), SameAt q q' x := by
  rcases walk_append.mp hr.walk with ⟨hpre, hpost⟩
  have hnd := hr.nodup
  simp only [List.nodup_cons, List.mem_append, List.mem_cons, not_or, List.nodup_append] at hnd
  rcases hnd with ⟨⟨hhpre, hhe, hhpost⟩, hndpre, ⟨hepost, hndpost⟩, hdisj⟩
  have hfinal : final h pre ≠ e := by
    intro heq
    have hm := final_mem h pre
    rw [heq, List.mem_cons] at hm
    rcases hm with hm | hm
    · exact hhe hm.symm
    · exact hdisj e hm e (Or.inl rfl) rfl
  have hfirst : first h post ≠ e := by
    intro heq
    have hm := first_mem h post
    rw [heq, List.mem_cons] at hm
    rcases hm with hm | hm
    · exact hhe hm.symm
    · exact hepost hm
  have hread : (Function.update q.forw (final h pre) (q.forw e)) e = some (first h post) := by
    rw [Function.update_of_ne hfinal.symm, hpost.forw_eq]
  have hread' : (Function.update q.back (first h post) (q.back e)) e = some (final h pre) := by
    rw [Function.update_of_ne hfirst.symm, hpre.back_eq]
  have hok : InsQueue.unlink q e = .ok ⟨Function.update q.forw (final h pre) (some (first h post)),
      Function.update q.back (first h post) (q.back e)⟩ := by
    rw [InsQueue.unlink, hpre.back_eq]
    dsimp only
    rw [hread, hpost.forw_eq]
  rcases hr.remque with ⟨q', hrem, hring, hsame⟩
  rw [InsQueue.remque, hpost.forw_eq] at hrem
  dsimp only at hrem
  rw [hread'] at hrem
  cases hrem
  refine ⟨_, hok, hring.congr fun x hx => ⟨rfl, ?_⟩, fun x hx => ?_⟩
  · have hxe : x ≠ e := by
      rintro rfl
      rcases List.mem_cons.mp hx with heq | hm
      · exact hhe heq.symm
      · rcases List.mem_append.mp hm with hm | hm
        · exact hdisj x hm x (Or.inl rfl) rfl
        · exact hepost hm
    exact Eq.symm (Function.update_of_ne hxe _ _)
  · have hxe : x ≠ e := fun heq => hx (heq ▸ by simp)
    refine ⟨(hsame x hx).1, Eq.trans ?_ (hsame x hx).2⟩
    exact Eq.symm (Function.update_of_ne hxe _ _)

/-- The pointers are those of `insque`. -/
theorem Ring.insertFirst (hr : Ring q h l) (he : e ∉ h :: l) :
    ∃ q', insertFirst q e h = .ok q' ∧ Ring q' h (e :: l) ∧ ∀ x ∉ h :: l, x ≠ e → SameAt q q' x := by
  have hmem := first_mem h l
  have heh : e ≠ h := fun heq => he (by simp [heq])
  have hfirst : first h l ≠ e := fun heq => he (heq ▸ hmem)
  rcases hr.insque he with ⟨q', hok, hring, hsame⟩
  have hread : (Function.update (Function.update q.forw e (q.forw h)) h (some e)) e =
      some (first h l) := by
    rw [Function.update_of_ne heh, Function.update_self, hr.walk.forw_eq]
  rw [InsQueue.insque] at hok
  rw [hread] at hok
  refine ⟨q', ?_, hring, hsame⟩
  rw [InsQueue.insertFirst, ← hok, hr.walk.forw_eq]
  dsimp only
  rw [Function.update_comm hfirst]

omit [DecidableEq α] in
/-- A circle may be entered at any of its nodes. -/
theorem Ring.rotate (hr : Ring q h (pre ++ e :: post)) : Ring q e (post ++ h :: pre) := by
  rcases walk_append.mp hr.walk with ⟨hpre, hpost⟩
  refine ⟨walk_append.mpr ⟨hpost, hpre⟩, ?_⟩
  have hperm : (h :: (pre ++ e :: post)).Perm (e :: (post ++ h :: pre)) := by
    have hswap : ((h :: pre) ++ (e :: post)).Perm ((e :: post) ++ (h :: pre)) :=
      List.perm_append_comm
    exact hswap
  exact hperm.nodup_iff.mp hr.nodup

/-- A new node at the end comes behind the last one. -/
theorem Ring.insertLast (hr : Ring q h l) (he : e ∉ h :: l) :
    ∃ q', insertLast q e h = .ok q' ∧ Ring q' h (l ++ [e]) ∧
      ∀ x ∉ h :: l, x ≠ e → SameAt q q' x := by
  -- the last node, from which the circle goes on to the head
  have hlast : ∃ post, Ring q (final h l) post ∧ first (final h l) post = h ∧
      (∀ q', Ring q' (final h l) (e :: post) → Ring q' h (l ++ [e])) ∧
        ∀ x, x ∈ final h l :: post ↔ x ∈ h :: l := by
    rcases List.eq_nil_or_concat' l with rfl | ⟨pre, c, rfl⟩
    · exact ⟨[], hr, rfl, fun q' h => h, fun x => Iff.rfl⟩
    · have hfin : final h (pre ++ [c]) = c := by
        clear hr he
        induction pre generalizing h with
        | nil => rfl
        | cons d pre ih => exact ih
      rw [hfin]
      refine ⟨h :: pre, hr.rotate, rfl, fun q' hr' => ?_, fun x => ?_⟩
      · have hrot : Ring q' c ([e] ++ h :: pre) := hr'
        simpa using hrot.rotate
      · simp only [List.mem_cons, List.mem_append, List.not_mem_nil, or_false]
        tauto
  rcases hlast with ⟨post, hring, hfirst, hback, hmem⟩
  have he' : e ∉ final h l :: post := fun hm => he ((hmem e).mp hm)
  rcases hring.insque he' with ⟨q', hok, hring', hsame⟩
  have hne : e ≠ final h l := fun heq => he' (by simp [heq])
  have heh : e ≠ h := fun heq => he (by simp [heq])
  have hforw : q.forw (final h l) = some h := by rw [hring.walk.forw_eq, hfirst]
  refine ⟨q', ?_, hback q' hring', fun x hx => hsame x fun hm => hx ((hmem x).mp hm)⟩
  rw [InsQueue.insque] at hok
  rw [Function.update_of_ne hne, Function.update_self, hforw] at hok
  rw [InsQueue.insertLast, hr.walk.back_eq, ← hok]
  dsimp only
  rw [Function.update_comm hne]

end Edit

/-! ## Families -/

variable {κ α : Type} {q q' : Links (Node κ α)} {l : κ → List α} {k k' : κ} {a b : α}

/-- The queue with the head `k` has the items `l k`, and no item is on two queues. -/
structure Queues (q : Links (Node κ α)) (l : κ → List α) : Prop where
  ring : ∀ k, Ring q (.head k) ((l k).map .item)
  apart : ∀ k₁ k₂ a, a ∈ l k₁ → a ∈ l k₂ → k₁ = k₂

theorem Queues.nodup (hq : Queues q l) (k : κ) : (l k).Nodup :=
  (List.nodup_cons.mp (hq.ring k).nodup).2.of_map

/-- What follows a head. -/
def firstNode (l : κ → List α) (k : κ) : Node κ α :=
  match l k with
  | [] => .head k
  | a :: _ => .item a

theorem Queues.forw_head (hq : Queues q l) (k : κ) : q.forw (.head k) = some (firstNode l k) := by
  rw [(hq.ring k).walk.forw_eq, firstNode]
  cases l k <;> rfl

theorem queues_empty (κ α : Type) :
    Queues (⟨some, some⟩ : Links (Node κ α)) fun _ => [] where
  ring := fun _ => ⟨⟨rfl, rfl⟩, List.nodup_singleton _⟩
  apart := nofun

/-- The nodes of another queue. -/
theorem Queues.not_mem (hq : Queues q l) (hk : k' ≠ k) {x : Node κ α}
    (hx : x ∈ Node.head k' :: (l k').map Node.item) :
    x ∉ Node.head k :: (l k).map Node.item := by
  rintro hx'
  rcases List.mem_cons.mp hx with rfl | hx
  · rcases List.mem_cons.mp hx' with heq | hx'
    · exact hk (Node.head.inj heq)
    · rcases List.mem_map.mp hx' with ⟨c, -, hc⟩
      cases hc
  · rcases List.mem_map.mp hx with ⟨b, hb, rfl⟩
    rcases List.mem_cons.mp hx' with heq | hx'
    · cases heq
    · rcases List.mem_map.mp hx' with ⟨c, hc, heq⟩
      rw [Node.item.inj heq] at hc
      exact hk (hq.apart k' k b hb hc)

section Edit

variable [DecidableEq κ] [DecidableEq α]

/-- An item leaves its queue. -/
theorem Queues.unlink (hq : Queues q l) (ha : a ∈ l k) :
    ∃ q', unlink q (.item a) = .ok q' ∧ Queues q' fun k => (l k).erase a := by
  have hnd := hq.nodup k
  rcases List.append_of_mem ha with ⟨pre, post, hl⟩
  have hring := hq.ring k
  rw [hl, List.map_append, List.map_cons] at hring
  rcases hring.unlink with ⟨q', hok, hring', hsame⟩
  have hapre : a ∉ pre := by
    rw [hl, List.nodup_append] at hnd
    exact fun hm => hnd.2.2 a hm a List.mem_cons_self rfl
  refine ⟨q', hok, fun k' => ?_, fun k k' b hb hb' =>
    hq.apart k k' b (List.mem_of_mem_erase hb) (List.mem_of_mem_erase hb')⟩
  by_cases hk : k' = k
  · rw [hk, hl, List.erase_append_right _ hapre, List.erase_cons_head, List.map_append]
    exact hring'
  · have hak : a ∉ l k' := fun hm => hk (hq.apart k' k a hm ha)
    rw [List.erase_of_not_mem hak]
    refine (hq.ring k').congr fun x hx => hsame x ?_
    rw [← List.map_cons, ← List.map_append, ← hl]
    exact hq.not_mem hk hx

/-- An item leaves its queue by `remque`, which isolates it. -/
theorem Queues.remque (hq : Queues q l) (ha : a ∈ l k) :
    ∃ q', remque q (.item a) = .ok q' ∧ (Queues q' fun k => (l k).erase a) ∧
      (∀ x ∉ Node.head k :: (l k).map Node.item, SameAt q q' x) ∧ q'.back (.item a) = none := by
  have hnd := hq.nodup k
  rcases List.append_of_mem ha with ⟨pre, post, hl⟩
  have hring := hq.ring k
  rw [hl, List.map_append, List.map_cons] at hring
  rcases hring.remque with ⟨q', hok, hring', hsame⟩
  have hsame' : ∀ x ∉ Node.head k :: (l k).map Node.item, SameAt q q' x := by
    intro x hx
    refine hsame x ?_
    rwa [hl, List.map_append, List.map_cons] at hx
  have hapre : a ∉ pre := by
    rw [hl, List.nodup_append] at hnd
    exact fun hm => hnd.2.2 a hm a List.mem_cons_self rfl
  have hnone : q'.back (.item a) = none := by
    rw [InsQueue.remque] at hok
    split at hok
    · cases hok
    · dsimp only at hok
      split at hok
      · cases hok
      · cases hok
        exact Function.update_self _ _ _
  refine ⟨q', hok, ⟨fun k' => ?_, fun k k' b hb hb' =>
    hq.apart k k' b (List.mem_of_mem_erase hb) (List.mem_of_mem_erase hb')⟩, hsame', hnone⟩
  by_cases hk : k' = k
  · rw [hk, hl, List.erase_append_right _ hapre, List.erase_cons_head, List.map_append]
    exact hring'
  · rw [List.erase_of_not_mem fun hm => hk (hq.apart k' k a hm ha)]
    exact (hq.ring k').congr fun x hx => hsame' x (hq.not_mem hk hx)

omit [DecidableEq α] in
theorem mem_update {m : List α} : b ∈ Function.update l k m k' ↔ b ∈ m ∧ k' = k ∨ b ∈ l k' ∧ k' ≠ k := by
  by_cases hk : k' = k
  · subst hk
    simp
  · simp [hk]

omit [DecidableEq α] in
/-- A queue with one more item. -/
theorem Queues.insert (hq : Queues q l) (ha : ∀ k, a ∉ l k) {m : List α} (hm : m.Perm (a :: l k))
    (hring : Ring q' (.head k) (m.map .item))
    (hsame : ∀ x ∉ Node.head k :: (l k).map Node.item, x ≠ .item a → SameAt q q' x) :
    Queues q' (Function.update l k m) where
  ring := fun k' => by
    by_cases hk : k' = k
    · rw [hk, Function.update_self]
      exact hring
    · rw [Function.update_of_ne hk]
      refine (hq.ring k').congr fun x hx => hsame x (hq.not_mem hk hx) ?_
      rintro rfl
      rcases List.mem_cons.mp hx with heq | hx
      · cases heq
      · rcases List.mem_map.mp hx with ⟨c, hc, heq⟩
        rw [Node.item.inj heq] at hc
        exact ha k' hc
  apart := fun k₁ k₂ b h₁ h₂ => by
    rw [mem_update, hm.mem_iff, List.mem_cons] at h₁ h₂
    rcases h₁ with ⟨h₁, rfl⟩ | ⟨h₁, hk₁⟩
    · rcases h₂ with ⟨-, rfl⟩ | ⟨h₂, hk₂⟩
      · rfl
      · rcases h₁ with rfl | h₁
        · exact absurd h₂ (ha k₂)
        · exact hq.apart _ _ b h₁ h₂
    · rcases h₂ with ⟨h₂, rfl⟩ | ⟨h₂, hk₂⟩
      · rcases h₂ with rfl | h₂
        · exact absurd h₁ (ha k₁)
        · exact hq.apart _ _ b h₁ h₂
      · exact hq.apart _ _ b h₁ h₂

omit [DecidableEq κ] [DecidableEq α] in
theorem not_mem_of_new (ha : ∀ k, a ∉ l k) (k : κ) :
    Node.item a ∉ Node.head k :: (l k).map Node.item := by
  intro hm
  rcases List.mem_cons.mp hm with heq | hm
  · cases heq
  · rcases List.mem_map.mp hm with ⟨c, hc, heq⟩
    rw [Node.item.inj heq] at hc
    exact ha k hc

/-- An item comes to the front of a queue. -/
theorem Queues.insertFirst (hq : Queues q l) (ha : ∀ k, a ∉ l k) (k : κ) :
    ∃ q', insertFirst q (.item a) (.head k) = .ok q' ∧
      Queues q' (Function.update l k (a :: l k)) := by
  rcases (hq.ring k).insertFirst (not_mem_of_new ha k) with ⟨q', hok, hring, hsame⟩
  exact ⟨q', hok, hq.insert ha (List.Perm.refl _) hring hsame⟩

/-- An item comes to the end of a queue. -/
theorem Queues.insertLast (hq : Queues q l) (ha : ∀ k, a ∉ l k) (k : κ) :
    ∃ q', insertLast q (.item a) (.head k) = .ok q' ∧
      Queues q' (Function.update l k (l k ++ [a])) := by
  rcases (hq.ring k).insertLast (not_mem_of_new ha k) with ⟨q', hok, hring, hsame⟩
  refine ⟨q', hok, hq.insert ha (List.perm_append_singleton a (l k)) ?_ hsame⟩
  rw [List.map_append]
  exact hring

/-- An item comes to the front of a queue by `insque`. -/
theorem Queues.insque (hq : Queues q l) (ha : ∀ k, a ∉ l k) (k : κ) :
    ∃ q', insque q (.item a) (.head k) = .ok q' ∧ Queues q' (Function.update l k (a :: l k)) := by
  rcases (hq.ring k).insque (not_mem_of_new ha k) with ⟨q', hok, hring, hsame⟩
  exact ⟨q', hok, hq.insert ha (List.Perm.refl _) hring hsame⟩

end Edit

/-! ## The queue of an item -/

/-- The pointers are those of queues. -/
def Tidy (q : Links (Node κ α)) : Prop := ∃ l, Queues q l

/-- The item is on the queue with the head `k`. -/
def On (q : Links (Node κ α)) (k : κ) (a : α) : Prop :=
  ∃ m : List α, Ring q (.head k) (m.map .item) ∧ a ∈ m

theorem Queues.on_iff (hq : Queues q l) : On q k a ↔ a ∈ l k := by
  constructor
  · rintro ⟨m, hm, ha⟩
    have heq := hm.unique (hq.ring k)
    rw [List.map_injective_iff.mpr (fun _ _ h => Node.item.inj h) heq] at ha
    exact ha
  · exact fun ha => ⟨l k, hq.ring k, ha⟩

theorem Tidy.apart (hq : Tidy q) (h : On q k a) (h' : On q k' a) : k = k' := by
  rcases hq with ⟨l, hl⟩
  exact hl.apart k k' a (hl.on_iff.mp h) (hl.on_iff.mp h')

/-- The first node of a queue. -/
theorem Tidy.forw_head (hq : Tidy q) (k : κ) :
    q.forw (.head k) = some (.head k) ∧ (∀ a, ¬On q k a) ∨
      ∃ a, q.forw (.head k) = some (.item a) ∧ On q k a := by
  rcases hq with ⟨l, hl⟩
  have hfirst := hl.forw_head k
  rw [firstNode] at hfirst
  cases hk : l k with
  | nil =>
    rw [hk] at hfirst
    refine Or.inl ⟨hfirst, fun a ha => ?_⟩
    have hmem := hl.on_iff.mp ha
    rw [hk] at hmem
    cases hmem
  | cons a m =>
    rw [hk] at hfirst
    exact Or.inr ⟨a, hfirst, hl.on_iff.mpr (hk ▸ List.mem_cons_self)⟩

/-- No item of a queue follows itself. -/
theorem Tidy.forw_ne (hq : Tidy q) (ha : On q k a) : q.forw (.item a) ≠ some (.item a) := by
  rcases hq with ⟨l, hl⟩
  rcases List.append_of_mem (hl.on_iff.mp ha) with ⟨pre, post, heq⟩
  have hring := hl.ring k
  have hnd := hl.nodup k
  rw [heq, List.map_append, List.map_cons] at hring
  rw [heq, List.nodup_append, List.nodup_cons] at hnd
  rw [(walk_append.mp hring.walk).2.forw_eq]
  cases post with
  | nil => exact nofun
  | cons c post =>
    intro hc
    exact hnd.2.1.1 (Node.item.inj (Option.some.inj hc) ▸ List.mem_cons_self)

section Edit

variable [DecidableEq κ] [DecidableEq α]

theorem Tidy.unlink (hq : Tidy q) (ha : On q k a) :
    ∃ q', unlink q (.item a) = .ok q' ∧ Tidy q' ∧ ∀ k x, On q' k x ↔ On q k x ∧ x ≠ a := by
  rcases hq with ⟨l, hl⟩
  rcases hl.unlink (hl.on_iff.mp ha) with ⟨q', hok, hl'⟩
  refine ⟨q', hok, ⟨_, hl'⟩, fun k x => ?_⟩
  rw [hl'.on_iff, hl.on_iff, (hl.nodup k).mem_erase_iff]
  exact And.comm

omit [DecidableEq α] in
/-- What is on a queue that got one more item. -/
theorem Queues.on_insert {m : List α} (hl : Queues q l) (hm : m.Perm (a :: l k))
    (hl' : Queues q' (Function.update l k m)) (k' : κ) (x : α) :
    On q' k' x ↔ On q k' x ∨ k' = k ∧ x = a := by
  rw [hl'.on_iff, hl.on_iff, mem_update, hm.mem_iff, List.mem_cons]
  constructor
  · rintro (⟨rfl | h, rfl⟩ | ⟨h, -⟩)
    · exact Or.inr ⟨rfl, rfl⟩
    · exact Or.inl h
    · exact Or.inl h
  · rintro (h | ⟨rfl, rfl⟩)
    · by_cases hk : k' = k
      · exact Or.inl ⟨Or.inr (hk ▸ h), hk⟩
      · exact Or.inr ⟨h, hk⟩
    · exact Or.inl ⟨Or.inl rfl, rfl⟩

theorem Tidy.insertFirst (hq : Tidy q) (ha : ∀ k, ¬On q k a) (k : κ) :
    ∃ q', insertFirst q (.item a) (.head k) = .ok q' ∧ Tidy q' ∧
      ∀ k' x, On q' k' x ↔ On q k' x ∨ k' = k ∧ x = a := by
  rcases hq with ⟨l, hl⟩
  rcases hl.insertFirst (fun k hm => ha k (hl.on_iff.mpr hm)) k with ⟨q', hok, hl'⟩
  exact ⟨q', hok, ⟨_, hl'⟩, hl.on_insert (List.Perm.refl _) hl'⟩

theorem Tidy.insertLast (hq : Tidy q) (ha : ∀ k, ¬On q k a) (k : κ) :
    ∃ q', insertLast q (.item a) (.head k) = .ok q' ∧ Tidy q' ∧
      ∀ k' x, On q' k' x ↔ On q k' x ∨ k' = k ∧ x = a := by
  rcases hq with ⟨l, hl⟩
  rcases hl.insertLast (fun k hm => ha k (hl.on_iff.mpr hm)) k with ⟨q', hok, hl'⟩
  exact ⟨q', hok, ⟨_, hl'⟩, hl.on_insert (List.perm_append_singleton a (l k)) hl'⟩

theorem Tidy.insque (hq : Tidy q) (ha : ∀ k, ¬On q k a) (k : κ) :
    ∃ q', insque q (.item a) (.head k) = .ok q' ∧ Tidy q' ∧
      ∀ k' x, On q' k' x ↔ On q k' x ∨ k' = k ∧ x = a := by
  rcases hq with ⟨l, hl⟩
  rcases hl.insque (fun k hm => ha k (hl.on_iff.mpr hm)) k with ⟨q', hok, hl'⟩
  exact ⟨q', hok, ⟨_, hl'⟩, hl.on_insert (List.Perm.refl _) hl'⟩

end Edit

end InsQueue
