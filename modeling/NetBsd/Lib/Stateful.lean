import Mathlib.Tactic.Common

/-!
# Computations on a state that may stop

`EStateM` keeps the state a computation has reached when it stops. `Ensures x s P Q` says what
`x` leaves when started at `s`: a value and a state with `P`, or an error and a state with `Q`.

## Main definitions

* `Stateful.Ensures`: a computation returns with `P` or stops with `Q`
* `stopIf`, `runIf`: a check, and a step that is not always taken

## Main results

* `Ensures.bind`: computations in sequence
* `Ensures.imp`: weaker assertions on both ways out
* `Ensures.ok`, `Ensures.error`: what a known outcome satisfies
-/

namespace Stateful

variable {ε σ α β : Type} {x : EStateM ε σ α} {s s' : σ} {P P' : α → σ → Prop}
  {Q Q' : ε → σ → Prop}

/-- Started at `s`, the computation returns with `P` or stops with `Q`. -/
def Ensures (x : EStateM ε σ α) (s : σ) (P : α → σ → Prop) (Q : ε → σ → Prop) : Prop :=
  match x s with
  | .ok a s' => P a s'
  | .error e s' => Q e s'

@[simp] theorem ensures_pure (a : α) : Ensures (pure a) s P Q ↔ P a s := Iff.rfl

@[simp] theorem ensures_throw (e : ε) :
    Ensures (throw e : EStateM ε σ α) s P Q ↔ Q e s := Iff.rfl

@[simp] theorem ensures_get {P : σ → σ → Prop} :
    Ensures (get : EStateM ε σ σ) s P Q ↔ P s s := Iff.rfl

@[simp] theorem ensures_modify {P : PUnit → σ → Prop} (f : σ → σ) :
    Ensures (modify f : EStateM ε σ PUnit) s P Q ↔ P ⟨⟩ (f s) := Iff.rfl

@[simp] theorem ensures_set {P : PUnit → σ → Prop} (t : σ) :
    Ensures (set t : EStateM ε σ PUnit) s P Q ↔ P ⟨⟩ t := Iff.rfl

/-- Stop with `e` if `p` holds. -/
def stopIf (p : Prop) [Decidable p] (e : ε) : EStateM ε σ Unit := if p then throw e else pure ()

/-- Compute only if `p` holds. -/
def runIf (p : Prop) [Decidable p] (x : EStateM ε σ Unit) : EStateM ε σ Unit :=
  if p then x else pure ()

theorem stopIf_pos {p : Prop} [Decidable p] {e : ε} (h : p) :
    (stopIf p e : EStateM ε σ Unit) s = .error e s := by
  rw [stopIf, if_pos h]
  rfl

theorem stopIf_neg {p : Prop} [Decidable p] {e : ε} (h : ¬p) :
    (stopIf p e : EStateM ε σ Unit) s = .ok () s := by
  rw [stopIf, if_neg h]
  rfl

theorem ensures_stopIf {p : Prop} [Decidable p] {e : ε} {P : Unit → σ → Prop} :
    Ensures (stopIf p e : EStateM ε σ Unit) s P Q ↔ (p → Q e s) ∧ (¬p → P () s) := by
  unfold stopIf
  split
  · rename_i h
    exact ⟨fun hq => ⟨fun _ => hq, fun hn => absurd h hn⟩, fun hq => hq.1 h⟩
  · rename_i h
    exact ⟨fun hp => ⟨fun hn => absurd hn h, fun _ => hp⟩, fun hp => hp.2 h⟩

theorem Ensures.runIf {p : Prop} [Decidable p] {x : EStateM ε σ Unit} {P : Unit → σ → Prop}
    (hx : p → Ensures x s P Q) (hs : ¬p → P () s) : Ensures (runIf p x) s P Q := by
  unfold Stateful.runIf
  split
  · exact hx ‹_›
  · exact hs ‹_›

theorem Ensures.bind {f : α → EStateM ε σ β} {R : β → σ → Prop} (h : Ensures x s P Q)
    (hf : ∀ a s', P a s' → Ensures (f a) s' R Q) : Ensures (x >>= f) s R Q := by
  have e : (x >>= f) s = match x s with
      | .ok a s' => f a s'
      | .error e s' => .error e s' := rfl
  unfold Ensures at h ⊢
  rw [e]
  cases hx : x s with
  | ok a s' =>
    rw [hx] at h
    exact hf a s' h
  | error e s' =>
    rw [hx] at h
    exact h

theorem Ensures.get {f : σ → EStateM ε σ β} {R : β → σ → Prop} (h : Ensures (f s) s R Q) :
    Ensures (MonadState.get >>= f) s R Q := h

theorem Ensures.modify {g : σ → σ} {f : Unit → EStateM ε σ β} {R : β → σ → Prop}
    (h : Ensures (f ()) (g s) R Q) : Ensures (modify g >>= f) s R Q := h

theorem Ensures.stopIf {p : Prop} [Decidable p] {e : ε} {f : Unit → EStateM ε σ β}
    {R : β → σ → Prop} (he : p → Q e s) (hf : ¬p → Ensures (f ()) s R Q) :
    Ensures (stopIf p e >>= f) s R Q := by
  refine Ensures.bind (P := fun _ s' => ¬p ∧ s' = s) ?_ ?_
  · exact ensures_stopIf.mpr ⟨he, fun h => ⟨h, rfl⟩⟩
  · rintro _ _ ⟨h, rfl⟩
    exact hf h

/-- A first part that is known to return. -/
theorem Ensures.step {a : α} {f : α → EStateM ε σ β} {R : β → σ → Prop} (hx : x s = .ok a s')
    (h : Ensures (f a) s' R Q) : Ensures (x >>= f) s R Q :=
  Ensures.bind (P := fun b t => b = a ∧ t = s') (by unfold Ensures; rw [hx]; exact ⟨rfl, rfl⟩)
    (by rintro _ _ ⟨rfl, rfl⟩; exact h)

theorem Ensures.imp (h : Ensures x s P Q) (hP : ∀ a s', P a s' → P' a s')
    (hQ : ∀ e s', Q e s' → Q' e s') : Ensures x s P' Q' := by
  unfold Ensures at h ⊢
  cases hx : x s with
  | ok a s' =>
    rw [hx] at h
    exact hP a s' h
  | error e s' =>
    rw [hx] at h
    exact hQ e s' h

theorem Ensures.ok {a : α} (h : Ensures x s P Q) (hx : x s = .ok a s') : P a s' := by
  unfold Ensures at h
  rw [hx] at h
  exact h

theorem Ensures.error {e : ε} (h : Ensures x s P Q) (hx : x s = .error e s') : Q e s' := by
  unfold Ensures at h
  rw [hx] at h
  exact h

/-- A sequence whose first part is known to return goes on from there. -/
theorem bind_ok {f : α → EStateM ε σ β} {a : α} (hx : x s = .ok a s') :
    (x >>= f) s = f a s' := by
  show (match x s with
    | .ok a s' => f a s'
    | .error e s' => .error e s') = f a s'
  rw [hx]

/-- A sequence whose first part is known to stop stops there. -/
theorem bind_error {f : α → EStateM ε σ β} {e : ε} (hx : x s = .error e s') :
    (x >>= f) s = .error e s' := by
  show (match x s with
    | .ok a s' => f a s'
    | .error e s' => .error e s') = .error e s'
  rw [hx]

end Stateful
