import NetBsd.Lib.LinkedList

/-!
# Tail queues

Lists in which each node also knows the place that points to it, with a pointer to the place after
the last node. Nodes are taken out anywhere and put in at both ends.

## Main definitions

* `Queue`: the links, the places of the nodes, and the last place
* `Chain q r l`: from the place `r`, the nodes of `l` follow, and then the last place
* `remove`, `insertTail`, `insertHead`: the three edits; the last one needs a first node

## Main results

* `Chain.nodup`: no node is in a queue twice
* `Chain.remove`, `Chain.insertTail`, `Chain.insertHead`: what the edits make of the nodes
-/

namespace TailQueue

open LinkedList

variable {α : Type}

/-- A place that holds a pointer: the head of the queue, or the link of a node. -/
abbrev Place (α : Type) : Type := Ref Unit α

structure Queue (α : Type) where
  links : Links Unit α
  prev : α → Place α
  tail : Place α

variable {q q' : Queue α} {r s : Place α} {a b : α} {l pre rest : List α}

/-- From the place `r`, the nodes of the list follow, and then the last place. -/
def Chain (q : Queue α) : Place α → List α → Prop
  | r, [] => q.links.get r = none ∧ q.tail = r
  | r, a :: l => q.links.get r = some a ∧ q.prev a = r ∧ Chain q (.next a) l

/-- The place after the nodes of a list from `r`. -/
def after : Place α → List α → Place α
  | r, [] => r
  | _, a :: l => after (.next a) l

@[simp] theorem after_nil : after r ([] : List α) = r := rfl

@[simp] theorem after_cons : after r (a :: l) = after (.next a) l := rfl

theorem after_append {l' : List α} : after r (l ++ l') = after (after r l) l' := by
  induction l generalizing r with
  | nil => rfl
  | cons a l ih => exact ih

/-- The place after a list is where it began, or the link of one of its nodes. -/
theorem after_eq (r : Place α) (l : List α) : after r l = r ∨ ∃ a ∈ l, after r l = .next a := by
  induction l generalizing r with
  | nil => exact Or.inl rfl
  | cons a l ih =>
    right
    rcases ih (.next a) with h | ⟨b, hb, h⟩
    · exact ⟨a, List.mem_cons_self, h⟩
    · exact ⟨b, List.mem_cons_of_mem _ hb, h⟩

theorem Chain.tail_eq (h : Chain q r l) : q.tail = after r l := by
  induction l generalizing r with
  | nil => exact h.2
  | cons a l ih => exact ih h.2.2

theorem Chain.prev_eq (h : Chain q r (pre ++ a :: rest)) : q.prev a = after r pre := by
  induction pre generalizing r with
  | nil => exact h.2.1
  | cons b pre ih => exact ih h.2.2

/-- From the place `r`, the nodes of the list follow. -/
def Path (q : Queue α) : Place α → List α → Prop
  | _, [] => True
  | r, a :: l => q.links.get r = some a ∧ q.prev a = r ∧ Path q (.next a) l

theorem chain_append : Chain q r (pre ++ rest) ↔ Path q r pre ∧ Chain q (after r pre) rest := by
  induction pre generalizing r with
  | nil => simp [Path]
  | cons a pre ih =>
    rw [List.cons_append, Chain, Path, ih, and_assoc, and_assoc]
    rfl

theorem Chain.drop (h : Chain q r (pre ++ rest)) : Chain q (after r pre) rest :=
  (chain_append.mp h).2

/-- A queue is determined by the place where it begins. -/
theorem Chain.unique {l' : List α} (h : Chain q r l) (h' : Chain q r l') : l = l' := by
  induction l generalizing r l' with
  | nil =>
    cases l' with
    | nil => rfl
    | cons b l' => exact absurd (h.1.symm.trans h'.1) nofun
  | cons a l ih =>
    cases l' with
    | nil => exact absurd (h.1.symm.trans h'.1) nofun
    | cons b l' =>
      have hab := Option.some.inj (h.1.symm.trans h'.1)
      subst hab
      rw [ih h.2.2 h'.2.2]

/-- No node is in a queue twice: the same nodes would follow it both times. -/
theorem Chain.nodup (h : Chain q r l) : l.Nodup := by
  induction l generalizing r with
  | nil => exact List.nodup_nil
  | cons a l ih =>
    refine List.nodup_cons.mpr ⟨fun ha => ?_, ih h.2.2⟩
    rcases List.append_of_mem ha with ⟨pre, post, rfl⟩
    have hsplit : Chain q (.next a) ((pre ++ [a]) ++ post) := by simpa using h.2.2
    have hpost := hsplit.drop
    rw [after_append] at hpost
    have hlen := congrArg List.length (h.2.2.unique hpost)
    simp only [List.length_append, List.length_cons] at hlen
    omega

/-- Only the links and places of the nodes matter. -/
theorem Chain.congr (h : Chain q r l) (hr : q'.links.get r = q.links.get r)
    (hl : ∀ a ∈ l, q'.links.next a = q.links.next a ∧ q'.prev a = q.prev a)
    (ht : q'.tail = q.tail) : Chain q' r l := by
  induction l generalizing r with
  | nil => exact ⟨hr.trans h.1, ht.trans h.2⟩
  | cons a l ih =>
    have ha := hl a List.mem_cons_self
    exact ⟨hr.trans h.1, ha.2.trans h.2.1,
      ih h.2.2 ha.1 fun b hb => hl b (List.mem_cons_of_mem _ hb)⟩

/-- A path does not read the place after it. -/
theorem Path.congr (h : Path q r l) (hnd : l.Nodup) (hr : ∀ a ∈ l, r ≠ .next a)
    (hl : ∀ s ≠ after r l, s = r ∨ (∃ a ∈ l, s = .next a) → q'.links.get s = q.links.get s)
    (hp : ∀ a ∈ l, q'.prev a = q.prev a) : Path q' r l := by
  induction l generalizing r with
  | nil => trivial
  | cons a l ih =>
    rcases List.nodup_cons.mp hnd with ⟨ha, hnd⟩
    have hne : r ≠ after r (a :: l) := by
      rw [after_cons]
      rcases after_eq (.next a) l with heq | ⟨b, hb, heq⟩
      · rw [heq]
        exact hr a List.mem_cons_self
      · rw [heq]
        exact hr b (List.mem_cons_of_mem _ hb)
    refine ⟨(hl r hne (Or.inl rfl)).trans h.1, (hp a List.mem_cons_self).trans h.2.1, ?_⟩
    refine ih h.2.2 hnd ?_ ?_ fun b hb => hp b (List.mem_cons_of_mem _ hb)
    · intro b hb heq
      rw [Ref.next.inj heq] at ha
      exact ha hb
    · rintro s hs (rfl | ⟨b, hb, rfl⟩)
      · exact hl _ hs (Or.inr ⟨a, List.mem_cons_self, rfl⟩)
      · exact hl _ hs (Or.inr ⟨b, List.mem_cons_of_mem _ hb, rfl⟩)

section Edit

variable [DecidableEq α]

/-- `*prev = next; if (next) next->prev = prev; else tail = prev`. -/
def remove (q : Queue α) (a : α) : Queue α :=
  let q' := { q with links := q.links.set (q.prev a) (q.links.next a) }
  match q.links.next a with
  | some b => { q' with prev := Function.update q.prev b (q.prev a) }
  | none => { q' with tail := q.prev a }

/-- `next = 0; prev = tail; *tail = a; tail = &next`. -/
def insertTail (q : Queue α) (a : α) : Queue α where
  links := (q.links.set (.next a) none).set q.tail (some a)
  prev := Function.update q.prev a q.tail
  tail := .next a

/-- `next = head; prev = &head; head->prev = &next; head = a`, where `first` is the head. -/
def insertHead (q : Queue α) (a first : α) : Queue α where
  links := (q.links.set (.next a) (some first)).set (.head ()) (some a)
  prev := Function.update (Function.update q.prev a (.head ())) first (.next a)
  tail := q.tail

/-- Writing to another place. -/
theorem get_set_next {L : Links Unit α} (h : .next a ≠ s) (p : Option α) :
    (L.set s p).next a = L.next a :=
  Links.get_set_of_ne h p

/-- A node that is taken out leaves the others in their order. -/
theorem Chain.remove (h : Chain q r (pre ++ a :: rest)) (hr : ∀ b ∈ pre ++ a :: rest, r ≠ .next b) :
    Chain (remove q a) r (pre ++ rest) := by
  have hnd := h.nodup
  have hprev := h.prev_eq
  have hrest := h.drop
  have hnext : (TailQueue.remove q a).links = q.links.set (q.prev a) (q.links.next a) := by
    rw [TailQueue.remove]
    split <;> rfl
  -- the nodes behind `a` move to the place before it
  have hback : Chain (TailQueue.remove q a) (after r pre) rest := by
    cases rest with
    | nil =>
      have hnone := hrest.2.2.1
      change q.links.next a = none at hnone
      rw [TailQueue.remove, hnone]
      refine ⟨?_, hprev⟩
      rw [hprev]
      exact Links.get_set_same _ _ _
    | cons b rest =>
      have hsome := hrest.2.2.1
      change q.links.next a = some b at hsome
      rw [List.nodup_append, List.nodup_cons, List.nodup_cons] at hnd
      rcases hnd with ⟨-, ⟨ha, hb, -⟩, hpre⟩
      have hplace : ∀ c ∈ b :: rest, (.next c : Place α) ≠ q.prev a := by
        intro c hc heq
        rw [hprev] at heq
        rcases after_eq r pre with h' | ⟨d, hd, h'⟩
        · rw [h'] at heq
          exact hr c (by simp [List.mem_cons.mp hc]) heq.symm
        · rw [h'] at heq
          exact hpre d hd c (List.mem_cons_of_mem _ hc) (Ref.next.inj heq).symm
      rw [TailQueue.remove, hsome]
      refine ⟨?_, ?_, hrest.2.2.2.2.congr (get_set_next (hplace b List.mem_cons_self) _) ?_ rfl⟩
      · rw [hprev]
        exact Links.get_set_same _ _ _
      · rw [hprev]
        exact Function.update_self _ _ _
      · intro c hc
        refine ⟨get_set_next (hplace c (List.mem_cons_of_mem _ hc)) _, ?_⟩
        apply Function.update_of_ne
        rintro rfl
        exact hb hc
  -- those before it keep their links, but for the last
  rw [List.nodup_append] at hnd
  refine chain_append.mpr ⟨(chain_append.mp h).1.congr hnd.1 (fun b hb => hr b (by simp [hb])) ?_ ?_,
    hback⟩
  · intro s hs _
    rw [hnext, hprev]
    exact Links.get_set_of_ne hs _
  · intro b hb
    rw [TailQueue.remove]
    split
    next c hc =>
      apply Function.update_of_ne
      rintro rfl
      have hrest' : b ∈ rest := by
        cases rest with
        | nil => exact absurd (hc.symm.trans hrest.2.2.1) nofun
        | cons d rest =>
          rw [Option.some.inj (hc.symm.trans hrest.2.2.1)]
          exact List.mem_cons_self
      exact hnd.2.2 b hb b (List.mem_cons_of_mem _ hrest') rfl
    next => rfl

theorem Chain.remove_first (h : Chain q (.head ()) (a :: rest)) :
    Chain (TailQueue.remove q a) (.head ()) rest := by
  have hnil : Chain q (.head ()) ([] ++ a :: rest) := h
  exact hnil.remove fun _ _ => nofun

/-- A new node at the end. -/
theorem Chain.insertTail (h : Chain q r l) (hb : b ∉ l) (hr : ∀ c ∈ b :: l, r ≠ .next c) :
    Chain (insertTail q b) r (l ++ [b]) := by
  have htail := h.tail_eq
  have hplace : (.next b : Place α) ≠ after r l := by
    rcases after_eq r l with heq | ⟨c, hc, heq⟩
    · rw [heq]
      exact (hr b List.mem_cons_self).symm
    · rw [heq]
      intro hbc
      rw [Ref.next.inj hbc] at hb
      exact hb hc
  refine chain_append.mpr ⟨?_, ?_, ?_, ?_, rfl⟩
  · have hl : Chain q r (l ++ []) := by
      rw [List.append_nil]
      exact h
    refine (chain_append.mp hl).1.congr h.nodup (fun c hc => hr c (List.mem_cons_of_mem _ hc)) ?_ ?_
    · intro s hs hmem
      have hsb : s ≠ .next b := by
        rcases hmem with rfl | ⟨c, hc, rfl⟩
        · exact hr b List.mem_cons_self
        · intro hcb
          rw [Ref.next.inj hcb] at hc
          exact hb hc
      rw [← htail] at hs
      exact (Links.get_set_of_ne hs _).trans (Links.get_set_of_ne hsb _)
    · intro c hc
      apply Function.update_of_ne
      rintro rfl
      exact hb hc
  · rw [TailQueue.insertTail, htail]
    exact Links.get_set_same _ _ _
  · rw [TailQueue.insertTail, htail]
    exact Function.update_self _ _ _
  · rw [TailQueue.insertTail, htail]
    exact (get_set_next hplace _).trans (Links.get_set_same _ (.next b) _)

/-- A new node before the first. -/
theorem Chain.insertHead (h : Chain q (.head ()) (a :: l)) (hb : b ∉ a :: l) :
    Chain (insertHead q b a) (.head ()) (b :: a :: l) := by
  rw [List.mem_cons, not_or] at hb
  have hnd := List.nodup_cons.mp h.nodup
  have hget (s : Place α) (hs : s ≠ .head ()) (hsb : s ≠ .next b) :
      (TailQueue.insertHead q b a).links.get s = q.links.get s :=
    (Links.get_set_of_ne hs _).trans (Links.get_set_of_ne hsb _)
  have hne (c : α) (hc : c ∈ a :: l) : (.next c : Place α) ≠ .next b := by
    intro hcb
    rw [Ref.next.inj hcb, List.mem_cons] at hc
    exact not_or.mpr hb hc
  have hhead (c : α) : (.next c : Place α) ≠ .head () := fun h => by cases h
  refine ⟨Links.get_set_same _ (.head ()) _, ?_, ?_, Function.update_self _ _ _, ?_⟩
  · exact (Function.update_of_ne hb.1 _ _).trans (Function.update_self _ _ _)
  · exact (get_set_next (hhead b) _).trans (Links.get_set_same _ (.next b) _)
  · refine h.2.2.congr (hget _ (hhead a) (hne a List.mem_cons_self)) ?_ rfl
    intro c hc
    have hcb := hne c (List.mem_cons_of_mem _ hc)
    refine ⟨hget (.next c) (hhead c) hcb, ?_⟩
    refine (Function.update_of_ne ?_ _ _).trans (Function.update_of_ne ?_ _ _)
    · rintro rfl
      exact hnd.1 hc
    · rintro rfl
      exact hb.2 hc

end Edit

end TailQueue
