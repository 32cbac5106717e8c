import Mathlib.Data.List.Basic

namespace Cvise
set_option autoImplicit true

variable {ε α β σ : Type}

theorem except_bind_ok {x : Except ε α} {f : α → Except ε β} :
    x >>= f = .ok b ↔ ∃ a, x = .ok a ∧ f a = .ok b := by
  cases x with
  | error e => simp [bind, Except.bind]
  | ok a => simp [bind, Except.bind]

theorem except_bind_isOk {x : Except ε α} {f : α → Except ε β} :
    (∃ b, x >>= f = .ok b) ↔ ∃ a, x = .ok a ∧ ∃ b, f a = .ok b := by
  simp only [except_bind_ok]
  constructor
  · intro ⟨b, a, ha, hb⟩
    exact ⟨a, ha, b, hb⟩
  · intro ⟨a, ha, b, hb⟩
    exact ⟨b, a, ha, hb⟩

theorem except_bind_error {x : Except ε α} {f : α → Except ε β} :
    x >>= f = .error e ↔ x = .error e ∨ ∃ a, x = .ok a ∧ f a = .error e := by
  cases x with
  | error e => simp [bind, Except.bind]
  | ok a => simp [bind, Except.bind]

theorem foldlM_invariant {P : σ → Prop} {f : σ → α → Except ε σ} {xs : List α}
    (hf : ∀ s a s', a ∈ xs → P s → f s a = .ok s' → P s')
    (hs : P s) (h : xs.foldlM f s = .ok s') : P s' := by
  induction xs generalizing s with
  | nil =>
    simp only [List.foldlM_nil, pure, Except.pure, Except.ok.injEq] at h
    exact h ▸ hs
  | cons x xs ih =>
    rw [List.foldlM_cons, except_bind_ok] at h
    obtain ⟨s₁, h₁, h⟩ := h
    exact ih (fun s a s' ha => hf s a s' (List.mem_cons_of_mem _ ha))
      (hf s x s₁ List.mem_cons_self hs h₁) h

theorem foldlM_error {f : σ → α → Except ε σ} {xs : List α} (h : xs.foldlM f s = .error e) :
    ∃ t, ∃ a ∈ xs, f t a = .error e := by
  induction xs generalizing s with
  | nil => cases h
  | cons x xs ih =>
    rw [List.foldlM_cons, except_bind_error] at h
    rcases h with h | ⟨t, _, h⟩
    · exact ⟨s, x, List.mem_cons_self, h⟩
    · obtain ⟨u, a, ha, h⟩ := ih h
      exact ⟨u, a, List.mem_cons_of_mem _ ha, h⟩

theorem except_mapM_mem {f : α → Except ε β} {xs : List α} (h : xs.mapM f = .ok ys) :
    y ∈ ys ↔ ∃ x ∈ xs, f x = .ok y := by
  induction xs generalizing ys with
  | nil =>
    rw [List.mapM_nil] at h
    cases h
    simp
  | cons x xs ih =>
    simp only [List.mapM_cons, except_bind_ok] at h
    obtain ⟨z, hz, zs, hzs, he⟩ := h
    cases he
    simp only [List.mem_cons, ih hzs, exists_eq_or_imp, hz, Except.ok.injEq]
    exact or_congr_left eq_comm

theorem except_mapM_isOk {f : α → Except ε β} {xs : List α} :
    (∃ ys, xs.mapM f = .ok ys) ↔ ∀ x ∈ xs, ∃ y, f x = .ok y := by
  induction xs with
  | nil => exact ⟨by simp, fun _ => ⟨[], rfl⟩⟩
  | cons x xs ih =>
    rw [List.forall_mem_cons, ← ih]
    simp only [List.mapM_cons, except_bind_ok]
    constructor
    · intro ⟨_, y, hy, zs, hzs, _⟩
      exact ⟨⟨y, hy⟩, zs, hzs⟩
    · intro ⟨⟨y, hy⟩, zs, hzs⟩
      exact ⟨y :: zs, y, hy, zs, hzs, rfl⟩

theorem except_mapM_error {f : α → Except ε β} {xs : List α} (h : xs.mapM f = .error e) :
    ∃ x ∈ xs, f x = .error e := by
  induction xs with
  | nil => cases h
  | cons x xs ih =>
    rw [List.mapM_cons, except_bind_error] at h
    rcases h with h | ⟨y, _, h⟩
    · exact ⟨x, List.mem_cons_self, h⟩
    · rcases except_bind_error.1 h with h | ⟨ys, _, h⟩
      · obtain ⟨z, hz, h⟩ := ih h
        exact ⟨z, List.mem_cons_of_mem _ hz, h⟩
      · cases h

/-- Both computations raise the same exception, or both succeed with results that are related. -/
inductive SameOutcome (R : α → β → Prop) : Except ε α → Except ε β → Prop
  | ok {a : α} {b : β} (h : R a b) : SameOutcome R (.ok a) (.ok b)
  | error (e : ε) : SameOutcome R (.error e) (.error e)

namespace SameOutcome

variable {γ δ : Type} {R : α → β → Prop} {S : γ → δ → Prop} {x : Except ε α} {y : Except ε β}

theorem bind {f : α → Except ε γ} {g : β → Except ε δ} (h : SameOutcome R x y)
    (hf : ∀ a b, R a b → SameOutcome S (f a) (g b)) : SameOutcome S (x >>= f) (y >>= g) := by
  cases h with
  | error e => exact .error e
  | ok h => exact hf _ _ h

theorem bind_same {f : α → Except ε γ} {g : α → Except ε δ}
    (hf : ∀ a, x = .ok a → SameOutcome S (f a) (g a)) : SameOutcome S (x >>= f) (x >>= g) := by
  cases x with
  | error e => exact .error e
  | ok a => exact hf a rfl

theorem of_left (h : SameOutcome R x y) (hx : x = .ok a) : ∃ b, y = .ok b ∧ R a b := by
  cases h with
  | error e => cases hx
  | ok h =>
    cases hx
    exact ⟨_, rfl, h⟩

theorem of_right (h : SameOutcome R x y) (hy : y = .ok b) : ∃ a, x = .ok a ∧ R a b := by
  cases h with
  | error e => cases hy
  | ok h =>
    cases hy
    exact ⟨_, rfl, h⟩

end SameOutcome

end Cvise
