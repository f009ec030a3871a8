import NetBsd.Lib.Fault
import Mathlib.Data.List.Nodup
import Mathlib.Logic.Function.Basic

/-!
# Circular queues

Nodes in circles, linked in both directions, each circle entered at its head. The links are the
pointers of `insque` and `remque`, which also empty queues and nodes on their own have: these point
to themselves.

## Main definitions

* `Links`, `insque`, `remque`: the pointers, and the two functions that change them
* `Ring q h l`: the circle with the head `h` has the nodes of `l` behind it, in order

## Main results

* `Ring.insque`, `Ring.remque`: what the two functions make of a circle; nodes outside keep theirs
* `Ring.remque_alone`: a node on its own may be taken out again
-/

namespace InsQueue

variable {α : Type}

/-- The pointers forwards and backwards; both may be null. -/
structure Links (α : Type) where
  forw : α → Option α
  back : α → Option α

variable {q q' : Links α} {a b c e h : α} {l pre post : List α}

/-- From `a`, the nodes of the list follow, and then `b`, with links in both directions. -/
def Walk (q : Links α) : α → List α → α → Prop
  | a, [], b => q.forw a = some b ∧ q.back b = some a
  | a, c :: l, b => q.forw a = some c ∧ q.back c = some a ∧ Walk q c l b

/-- The circle with the head `h`. -/
structure Ring (q : Links α) (h : α) (l : List α) : Prop where
  walk : Walk q h l h
  nodup : (h :: l).Nodup

/-- The pointers of a node are the same. -/
def SameAt (q q' : Links α) (a : α) : Prop := q'.forw a = q.forw a ∧ q'.back a = q.back a

theorem walk_append : Walk q a (pre ++ c :: post) b ↔ Walk q a pre c ∧ Walk q c post b := by
  induction pre generalizing a with
  | nil => simp [Walk, and_assoc]
  | cons d pre ih => rw [List.cons_append, Walk, Walk, ih, and_assoc, and_assoc]

/-- Only the pointers along the way matter. -/
theorem Walk.congr (hw : Walk q a l b) (hf : ∀ x ∈ a :: l, q'.forw x = q.forw x)
    (hb : ∀ x ∈ b :: l, q'.back x = q.back x) : Walk q' a l b := by
  induction l generalizing a with
  | nil => exact ⟨(hf a List.mem_cons_self).trans hw.1, (hb b List.mem_cons_self).trans hw.2⟩
  | cons c l ih =>
    refine ⟨(hf a List.mem_cons_self).trans hw.1, (hb c (by simp)).trans hw.2.1, ih hw.2.2 ?_ ?_⟩
    · exact fun x hx => hf x (List.mem_cons_of_mem _ hx)
    · intro x hx
      rcases List.mem_cons.mp hx with rfl | hx
      · exact hb x List.mem_cons_self
      · exact hb x (by simp [hx])

theorem Ring.congr (hr : Ring q h l) (hs : ∀ x ∈ h :: l, SameAt q q' x) : Ring q' h l :=
  ⟨hr.walk.congr (fun x hx => (hs x hx).1) fun x hx => (hs x hx).2, hr.nodup⟩

/-- A walk is determined by where it begins and the end that it does not pass. -/
theorem Walk.unique {l' : List α} (hw : Walk q a l b) (hb : b ∉ l) (hw' : Walk q a l' b)
    (hb' : b ∉ l') : l = l' := by
  induction l generalizing a l' with
  | nil =>
    cases l' with
    | nil => rfl
    | cons c l' =>
      have hcb := Option.some.inj (hw.1.symm.trans hw'.1)
      exact absurd (hcb ▸ List.mem_cons_self) hb'
  | cons c l ih =>
    rw [List.mem_cons, not_or] at hb
    cases l' with
    | nil => exact absurd (Option.some.inj (hw'.1.symm.trans hw.1)) hb.1
    | cons d l' =>
      rw [List.mem_cons, not_or] at hb'
      have hcd := Option.some.inj (hw.1.symm.trans hw'.1)
      subst hcd
      rw [ih hw.2.2 hb.2 hw'.2.2 hb'.2]

theorem Ring.unique {l' : List α} (hr : Ring q h l) (hr' : Ring q h l') : l = l' :=
  hr.walk.unique (List.nodup_cons.mp hr.nodup).1 hr'.walk (List.nodup_cons.mp hr'.nodup).1

/-- The node behind the head. -/
def first (h : α) : List α → α
  | [] => h
  | a :: _ => a

/-- The node before the end of a walk. -/
def final (a : α) : List α → α
  | [] => a
  | b :: l => final b l

theorem Walk.forw_eq (hw : Walk q a l b) : q.forw a = some (first b l) := by
  cases l with
  | nil => exact hw.1
  | cons c l => exact hw.1

theorem Walk.back_eq (hw : Walk q a l b) : q.back b = some (final a l) := by
  induction l generalizing a with
  | nil => exact hw.2
  | cons c l ih => exact ih hw.2.2

theorem final_mem (a : α) (l : List α) : final a l ∈ a :: l := by
  induction l generalizing a with
  | nil => exact List.mem_cons_self
  | cons b l ih => exact List.mem_cons_of_mem _ (ih b)

theorem first_mem (b : α) (l : List α) : first b l ∈ b :: l := by
  cases l with
  | nil => exact List.mem_cons_self
  | cons c l => simp [first]

section Edit

variable [DecidableEq α]

/-- `element->forw = head->forw; head->forw = element; element->back = head;
element->forw->back = element`. -/
def insque (q : Links α) (e h : α) : Except Fault (Links α) :=
  let forw := Function.update (Function.update q.forw e (q.forw h)) h (some e)
  let back := Function.update q.back e (some h)
  match forw e with
  | none => .error .deref
  | some a => .ok ⟨forw, Function.update back a (some e)⟩

/-- `element->forw->back = element->back; element->back->forw = element->forw;
element->back = 0`. -/
def remque (q : Links α) (e : α) : Except Fault (Links α) :=
  match q.forw e with
  | none => .error .deref
  | some a =>
    let back := Function.update q.back a (q.back e)
    match back e with
    | none => .error .deref
    | some b => .ok ⟨Function.update q.forw b (some a), Function.update back e none⟩

/-- The links of a node that points to itself. -/
def alone (q : Links α) (e : α) : Links α :=
  ⟨Function.update q.forw e (some e), Function.update q.back e (some e)⟩

/-- A new node comes behind the head. -/
theorem Ring.insque (hr : Ring q h l) (he : e ∉ h :: l) :
    ∃ q', insque q e h = .ok q' ∧ Ring q' h (e :: l) ∧
      ∀ x ∉ h :: l, x ≠ e → SameAt q q' x := by
  have hforw := hr.walk.forw_eq
  have hmem := first_mem h l
  have heh : e ≠ h := fun heq => he (by simp [heq])
  have hfirst : e ≠ first h l := fun heq => he (heq ▸ hmem)
  have hread : (Function.update (Function.update q.forw e (q.forw h)) h (some e)) e =
      some (first h l) := by
    rw [Function.update_of_ne heh, Function.update_self, hforw]
  refine ⟨_, by rw [InsQueue.insque, hread], ⟨?_, ?_⟩, ?_⟩
  · have hnd := List.nodup_cons.mp hr.nodup
    have htail : Walk q h l h := hr.walk
    refine ⟨Function.update_self _ _ _, ?_, ?_⟩
    · exact (Function.update_of_ne hfirst _ _).trans (Function.update_self _ _ _)
    · cases l with
      | nil => exact ⟨hread, Function.update_self _ _ _⟩
      | cons a l =>
        refine ⟨hread, Function.update_self _ _ _, htail.2.2.congr ?_ ?_⟩
        · intro x hx
          have hxh : x ≠ h := fun heq => hnd.1 (heq ▸ hx)
          have hxe : x ≠ e := fun heq => he (heq ▸ List.mem_cons_of_mem _ hx)
          exact (Function.update_of_ne hxh _ _).trans (Function.update_of_ne hxe _ _)
        · intro x hx
          have hxa : x ≠ a := by
            rintro rfl
            rcases List.mem_cons.mp hx with rfl | hx
            · exact hnd.1 List.mem_cons_self
            · exact (List.nodup_cons.mp hnd.2).1 hx
          have hxe : x ≠ e := by
            rintro rfl
            rcases List.mem_cons.mp hx with rfl | hx
            · exact heh rfl
            · exact he (by simp [hx])
          exact (Function.update_of_ne hxa _ _).trans (Function.update_of_ne hxe _ _)
  · have hnd := hr.nodup
    simp only [List.nodup_cons, List.mem_cons, not_or] at hnd he ⊢
    exact ⟨⟨heh.symm, hnd.1⟩, he.2, hnd.2⟩
  · intro x hx hxe
    have hxh : x ≠ h := fun heq => hx (by simp [heq])
    have hxf : x ≠ first h l := fun heq => hx (heq ▸ hmem)
    exact ⟨(Function.update_of_ne hxh _ _).trans (Function.update_of_ne hxe _ _),
      (Function.update_of_ne hxf _ _).trans (Function.update_of_ne hxe _ _)⟩

omit [DecidableEq α] in
/-- A walk up to a node, on to another one. -/
theorem Walk.redirect (hw : Walk q a l e) (hnd : (a :: l).Nodup)
    (hf : q'.forw (final a l) = some b)
    (hf' : ∀ x ∈ a :: l, x ≠ final a l → q'.forw x = q.forw x)
    (hb : q'.back b = some (final a l)) (hb' : ∀ x ∈ l, q'.back x = q.back x) :
    Walk q' a l b := by
  induction l generalizing a with
  | nil => exact ⟨hf, hb⟩
  | cons c l ih =>
    rcases List.nodup_cons.mp hnd with ⟨ha, hnd⟩
    have hne : a ≠ final c l := fun heq => ha (heq ▸ final_mem c l)
    refine ⟨(hf' a List.mem_cons_self hne).trans hw.1,
      (hb' c List.mem_cons_self).trans hw.2.1, ih hw.2.2 hnd hf ?_ hb ?_⟩
    · exact fun x hx => hf' x (List.mem_cons_of_mem _ hx)
    · exact fun x hx => hb' x (List.mem_cons_of_mem _ hx)

/-- A node that is taken out of a circle. -/
theorem Ring.remque (hr : Ring q h (pre ++ e :: post)) :
    ∃ q', remque q e = .ok q' ∧ Ring q' h (pre ++ post) ∧
      ∀ x ∉ h :: (pre ++ e :: post), SameAt q q' x := by
  rcases walk_append.mp hr.walk with ⟨hpre, hpost⟩
  have hforw := hpost.forw_eq
  have hback := hpre.back_eq
  have hnd := hr.nodup
  simp only [List.nodup_cons, List.mem_append, List.mem_cons, not_or, List.nodup_append] at hnd
  rcases hnd with ⟨⟨hhpre, hhe, hhpost⟩, hndpre, ⟨hepost, hndpost⟩, hdisj⟩
  have hepre : e ∉ pre := fun hm => hdisj e hm e (Or.inl rfl) rfl
  have hfirst : first h post ≠ e := by
    intro heq
    have hm := first_mem h post
    rw [heq, List.mem_cons] at hm
    rcases hm with hm | hm
    · exact hhe hm.symm
    · exact hepost hm
  have hfinal : final h pre ≠ e := by
    intro heq
    have hm := final_mem h pre
    rw [heq, List.mem_cons] at hm
    rcases hm with hm | hm
    · exact hhe hm.symm
    · exact hepre hm
  have hread : (Function.update q.back (first h post) (q.back e)) e = some (final h pre) := by
    rw [Function.update_of_ne hfirst.symm, hback]
  refine ⟨⟨Function.update q.forw (final h pre) (some (first h post)), Function.update
    (Function.update q.back (first h post) (q.back e)) e none⟩, ?_, ⟨?_, ?_⟩, ?_⟩
  · rw [InsQueue.remque, hforw]
    dsimp only
    rw [hread]
  · have hfpre : ∀ x ∈ h :: pre, x ≠ final h pre →
        Function.update q.forw (final h pre) (some (first h post)) x = q.forw x :=
      fun x _ hx => Function.update_of_ne hx _ _
    have hbfirst : Function.update (Function.update q.back (first h post) (q.back e)) e none
        (first h post) = some (final h pre) :=
      (Function.update_of_ne hfirst _ _).trans ((Function.update_self _ _ _).trans hback)
    have hbother : ∀ x, x ≠ e → x ≠ first h post →
        Function.update (Function.update q.back (first h post) (q.back e)) e none x = q.back x :=
      fun x hxe hxf => (Function.update_of_ne hxe _ _).trans (Function.update_of_ne hxf _ _)
    have hndh : (h :: pre).Nodup := List.nodup_cons.mpr ⟨hhpre, hndpre⟩
    -- up to the node behind `e`, which is the head when `e` was the last one
    have hto : Walk ⟨Function.update q.forw (final h pre) (some (first h post)), Function.update
        (Function.update q.back (first h post) (q.back e)) e none⟩ h pre (first h post) := by
      refine hpre.redirect hndh (Function.update_self _ _ _) hfpre hbfirst fun x hx => ?_
      refine hbother x (fun heq => hepre (heq ▸ hx)) fun heq => ?_
      have hm := first_mem h post
      rw [← heq, List.mem_cons] at hm
      rcases hm with rfl | hm
      · exact hhpre hx
      · exact hdisj x hx x (Or.inr hm) rfl
    cases post with
    | nil =>
      rw [List.append_nil]
      exact hto
    | cons c post =>
      simp only [List.mem_cons, not_or, List.nodup_cons] at hhpost hepost hndpost
      refine walk_append.mpr ⟨hto, hpost.2.2.congr ?_ ?_⟩
      · intro x hx
        apply Function.update_of_ne
        rintro rfl
        rcases List.mem_cons.mp (final_mem h pre) with heq | hm
        · rw [heq] at hx
          exact List.mem_cons.mp hx |>.elim hhpost.1 hhpost.2
        · exact hdisj _ hm _ (Or.inr hx) rfl
      · intro x hx
        rcases List.mem_cons.mp hx with rfl | hx
        · exact hbother x hhe hhpost.1
        · refine hbother x (fun heq => hepost.2 (heq ▸ hx)) ?_
          rintro rfl
          exact hndpost.1 hx
  · simp only [List.nodup_cons, List.mem_append, not_or, List.nodup_append]
    exact ⟨⟨hhpre, hhpost⟩, hndpre, hndpost, fun x hx y hy => hdisj x hx y (Or.inr hy)⟩
  · intro x hx
    have hsub : ∀ y ∈ h :: (pre ++ e :: post), x ≠ y := fun y hy heq => hx (heq ▸ hy)
    have hxe : x ≠ e := hsub e (by simp)
    have hxfirst : x ≠ first h post := hsub _ (by
      rcases List.mem_cons.mp (first_mem h post) with heq | hm
      · simp [heq]
      · simp [hm])
    have hxfinal : x ≠ final h pre := hsub _ (by
      rcases List.mem_cons.mp (final_mem h pre) with heq | hm
      · simp [heq]
      · simp [hm])
    exact ⟨Function.update_of_ne hxfinal _ _,
      (Function.update_of_ne hxe _ _).trans (Function.update_of_ne hxfirst _ _)⟩

/-- A node on its own is taken out of no circle. -/
theorem Ring.remque_alone (hr : Ring q e []) :
    ∃ q', InsQueue.remque q e = .ok q' ∧ ∀ x ≠ e, SameAt q q' x := by
  have hread : (Function.update q.back e (q.back e)) e = some e := by
    rw [Function.update_self]
    exact hr.walk.2
  refine ⟨⟨Function.update q.forw e (some e), Function.update
    (Function.update q.back e (q.back e)) e none⟩, ?_, fun x hx => ⟨?_, ?_⟩⟩
  · rw [InsQueue.remque, hr.walk.1]
    dsimp only
    rw [hread]
  · exact Function.update_of_ne hx _ _
  · exact (Function.update_of_ne hx _ _).trans (Function.update_of_ne hx _ _)

theorem ring_alone (q : Links α) (e : α) : Ring (alone q e) e [] :=
  ⟨⟨Function.update_self _ _ _, Function.update_self _ _ _⟩, List.nodup_singleton e⟩

theorem same_alone {x : α} (hx : x ≠ e) : SameAt q (alone q e) x :=
  ⟨Function.update_of_ne hx _ _, Function.update_of_ne hx _ _⟩

end Edit

end InsQueue
