import Mathlib.Data.List.Basic

namespace Cvise
set_option autoImplicit true

variable {ε σ α β : Type}

/-- `try: … except …:`. What was done to the state before the exception stays done. -/
def tryExcept (x : EStateM ε σ α) (handler : ε → EStateM ε σ α) : EStateM ε σ α := fun s =>
  match x s with
  | .ok a t => .ok a t
  | .error e t => handler e t

/-- `try: … finally: …`. An exception of the cleanup takes the place of an earlier one. -/
def tryFinally (x : EStateM ε σ α) (cleanup : EStateM ε σ Unit) : EStateM ε σ α := fun s =>
  match x s with
  | .ok a t => (cleanup >>= fun _ => pure a) t
  | .error e t => (cleanup >>= fun _ => throw e) t

/-- From each state in `P`, the computation returns with a value and a state in `Q`, or it raises an
exception in a state in `E`. -/
def Triple (P : σ → Prop) (x : EStateM ε σ α) (Q : α → σ → Prop) (E : ε → σ → Prop) : Prop :=
  ∀ s, P s → match x s with
    | .ok a t => Q a t
    | .error e t => E e t

namespace Triple

variable {P P' : σ → Prop} {Q Q' : α → σ → Prop} {R : β → σ → Prop} {E E' : ε → σ → Prop}
  {x : EStateM ε σ α} {f : α → EStateM ε σ β}

theorem consequence (h : Triple P' x Q' E') (hP : ∀ s, P s → P' s) (hQ : ∀ a s, Q' a s → Q a s)
    (hE : ∀ e s, E' e s → E e s) : Triple P x Q E := by
  intro s hs
  have hx := h s (hP s hs)
  cases hr : x s with
  | ok a t => rw [hr] at hx; exact hQ a t hx
  | error e t => rw [hr] at hx; exact hE e t hx

theorem ofPure (h : ∀ s, P s → Q a s) : Triple P (pure a : EStateM ε σ α) Q E := h

theorem ofThrow (h : ∀ s, P s → E e s) : Triple P (throw e : EStateM ε σ α) Q E := h

theorem ofModify {g : σ → σ} {Q : Unit → σ → Prop} (h : ∀ s, P s → Q () (g s)) :
    Triple P (modify g : EStateM ε σ Unit) Q E := h

theorem bind (hx : Triple P x Q E) (hf : ∀ a, Triple (Q a) (f a) R E) : Triple P (x >>= f) R E := by
  intro s hs
  have hx' := hx s hs
  show match EStateM.bind x f s with | .ok a t => R a t | .error e t => E e t
  rw [EStateM.bind]
  cases hr : x s with
  | ok a t =>
    rw [hr] at hx'
    exact hf a t hx'
  | error e t =>
    rw [hr] at hx'
    exact hx'

theorem ofGet {f : σ → EStateM ε σ β} (h : ∀ t, Triple (fun s => P s ∧ t = s) (f t) R E) :
    Triple P (get >>= f) R E := fun s hs => h s s ⟨hs, rfl⟩

theorem ofExists {ι : Type} {P : ι → σ → Prop} (h : ∀ i, Triple (P i) x Q E) :
    Triple (fun s => ∃ i, P i s) x Q E := fun s ⟨i, hs⟩ => h i s hs

theorem ofAnd {p : Prop} (h : p → Triple P x Q E) : Triple (fun s => p ∧ P s) x Q E :=
  fun s ⟨hp, hs⟩ => h hp s hs

theorem tryExcept {handler : ε → EStateM ε σ α} (hx : Triple P x Q E)
    (hh : ∀ e, Triple (E e) (handler e) Q E') : Triple P (tryExcept x handler) Q E' := by
  intro s hs
  have hx' := hx s hs
  rw [Cvise.tryExcept]
  cases hr : x s with
  | ok a t =>
    rw [hr] at hx'
    exact hx'
  | error e t =>
    rw [hr] at hx'
    exact hh e t hx'

theorem tryFinally {cleanup : EStateM ε σ Unit} {S : α → σ → Prop} {F : ε → σ → Prop}
    (hx : Triple P x Q E) (hok : ∀ a, Triple (Q a) cleanup (fun _ => S a) F)
    (herror : ∀ e, Triple (E e) cleanup (fun _ => F e) F) :
    Triple P (tryFinally x cleanup) S F := by
  intro s hs
  have hx' := hx s hs
  rw [Cvise.tryFinally]
  cases hr : x s with
  | ok a t =>
    rw [hr] at hx'
    exact (hok a).bind (fun _ => ofPure fun _ h => h) t hx'
  | error e t =>
    rw [hr] at hx'
    exact (herror e).bind (fun _ => ofThrow fun _ h => h) t hx'

end Triple

end Cvise
