import Mathlib.Data.List.Induction

namespace Cvise
set_option autoImplicit true

variable {S E : Type} {step : S → E → Option S}

/-- What a list of events does from a state, if each of them is possible in its turn. -/
def runFrom (step : S → E → Option S) : S → List E → Option S
  | s, [] => some s
  | s, e :: es => (step s e).bind fun s' => runFrom step s' es

theorem runFrom_append (s : S) (es fs : List E) :
    runFrom step s (es ++ fs) = (runFrom step s es).bind fun t => runFrom step t fs := by
  induction es generalizing s with
  | nil => rfl
  | cons e es ih =>
    rw [List.cons_append, runFrom, runFrom, Option.bind_assoc]
    congr 1
    funext t
    exact ih t

theorem runFrom_snoc {es : List E} {s v : S} {e : E} : runFrom step s (es ++ [e]) = some v ↔
    ∃ u, runFrom step s es = some u ∧ step u e = some v := by
  rw [runFrom_append, Option.bind_eq_some_iff]
  simp only [runFrom, Option.bind_fun_some]

/-- An invariant about the events so far and the state that they have led to. -/
theorem runFrom_invariant {P : List E → S → Prop} (h : runFrom step s es = some t) (h₀ : P [] s)
    (hstep : ∀ fs e u v, runFrom step s fs = some u → P fs u → step u e = some v →
      P (fs ++ [e]) v) : P es t := by
  induction es using List.reverseRecOn generalizing t with
  | nil =>
    cases h
    exact h₀
  | append_singleton fs e ih =>
    obtain ⟨u, hu, hv⟩ := runFrom_snoc.1 h
    exact hstep fs e u t hu (ih hu) hv

/-- The states reached by steps that each meet the condition `C` on the state before. -/
inductive Run (step : S → E → Option S) (C : S → E → Prop) (s : S) : S → Prop
  | refl : Run step C s s
  | tail : Run step C s u → C u e → step u e = some v → Run step C s v

abbrev Reach (step : S → E → Option S) : S → S → Prop := Run step fun _ _ => True

namespace Run

/-- What holds at first and is kept by each step holds of every state reached. -/
theorem invariant {P : S → Prop} (h : Run step C s t) (hs : P s)
    (hstep : ∀ u e v, P u → C u e → step u e = some v → P v) : P t := by
  induction h with
  | refl => exact hs
  | tail _ hc hv ih => exact hstep _ _ _ ih hc hv

theorem mono (h : Run step C s t) (hcd : ∀ u e, C u e → D u e) : Run step D s t := by
  induction h with
  | refl => exact .refl
  | tail _ hc hv ih => exact .tail ih (hcd _ _ hc) hv

theorem reach (h : Run step C s t) : Reach step s t := h.mono fun _ _ _ => trivial

/-- An invariant whose steps may use that the state before is reached. -/
theorem invariant_of_reach {P : S → Prop} (h : Run step C s t) (hs : P s)
    (hstep : ∀ u e v, Reach step s u → P u → C u e → step u e = some v → P v) : P t := by
  induction h with
  | refl => exact hs
  | tail hu hc hv ih => exact hstep _ _ _ hu.reach ih hc hv

theorem of_reach (h : Reach step s t) (hc : ∀ u e, Reach step s u → C u e) : Run step C s t := by
  induction h with
  | refl => exact .refl
  | tail hu _ hv ih => exact .tail ih (hc _ _ hu) hv

theorem trans (h : Run step C s t) (h' : Run step C t u) : Run step C s u := by
  induction h' with
  | refl => exact h
  | tail _ hc hv ih => exact .tail ih hc hv

theorem head (hc : C s e) (hu : step s e = some u) (h : Run step C u t) : Run step C s t := by
  induction h with
  | refl => exact .tail .refl hc hu
  | tail _ hc' hv ih => exact .tail ih hc' hv

end Run

theorem runFrom_reach (h : runFrom step s es = some t) : Reach step s t := by
  induction es generalizing s with
  | nil =>
    cases h
    exact .refl
  | cons e es ih =>
    obtain ⟨u, hu, h⟩ := Option.bind_eq_some_iff.1 h
    exact Run.head trivial hu (ih h)

/-- The events of a run, each of which meets the condition in its turn. -/
theorem Run.events (h : Run step C s t) : ∃ es, runFrom step s es = some t ∧
    ∀ before e after, es = before ++ e :: after →
      ∃ u v, runFrom step s before = some u ∧ C u e ∧ step u e = some v := by
  induction h with
  | refl => exact ⟨[], rfl, fun before e after h => by simp at h⟩
  | @tail u e v _ hc hv ih =>
    obtain ⟨es, hes, hall⟩ := ih
    refine ⟨es ++ [e], runFrom_snoc.2 ⟨u, hes, hv⟩, fun before f after h => ?_⟩
    rcases List.eq_nil_or_concat after with rfl | ⟨after, g, rfl⟩
    · obtain ⟨rfl, hf⟩ := List.append_inj' h rfl
      cases hf
      exact ⟨u, v, hes, hc, hv⟩
    · apply hall before f after
      rw [List.concat_eq_append, ← List.cons_append, ← List.append_assoc] at h
      exact (List.append_inj' h rfl).1

/-- Whether each of the events meets the condition `c` in its turn. -/
def along (step : S → E → Option S) (c : S → E → Bool) : S → List E → Bool
  | _, [] => true
  | s, e :: es => c s e && (step s e).all fun s' => along step c s' es

theorem run_of_along (h : runFrom step s es = some t) (hc : along step c s es) :
    Run step (fun s e => c s e) s t := by
  induction es generalizing s with
  | nil =>
    cases h
    exact .refl
  | cons e es ih =>
    obtain ⟨u, hu, h⟩ := Option.bind_eq_some_iff.1 h
    rw [along, hu, Bool.and_eq_true] at hc
    exact Run.head hc.1 hu (ih h hc.2)

/-- With a measure that each step makes smaller, every sequence of events comes to its end. -/
theorem runFrom_ends {μ : S → Nat}
    (hstep : ∀ u e v, Reach step s u → step u e = some v → μ v < μ u) (events : Nat → E) :
    ∃ k t, runFrom step s ((List.range k).map events) = some t ∧ step t (events k) = none := by
  have hall : ∀ k, (∃ j t, runFrom step s ((List.range j).map events) = some t ∧
      step t (events j) = none) ∨
        ∃ t, runFrom step s ((List.range k).map events) = some t ∧ μ t + k ≤ μ s := by
    intro k
    induction k with
    | zero => exact .inr ⟨s, rfl, Nat.le_refl _⟩
    | succ k ih =>
      rcases ih with hends | ⟨t, hrun, hle⟩
      · exact .inl hends
      · cases hnext : step t (events k) with
        | none => exact .inl ⟨k, t, hrun, hnext⟩
        | some u =>
          have hlt := hstep t (events k) u (runFrom_reach hrun) hnext
          refine .inr ⟨u, ?_, by omega⟩
          rw [List.range_succ, List.map_append, runFrom_append, hrun, Option.bind_some,
            List.map_singleton, runFrom, hnext]
          rfl
  rcases hall (μ s + 1) with hends | ⟨t, _, hle⟩
  · exact hends
  · omega

/-- The states that a sequence of events leads through from the time `k` on, up to the end. -/
inductive Visits (step : S → E → Option S) (events : Nat → E) : Nat → Option S → List S → Prop
  | finished : Visits step events k none []
  | next (h : Visits step events (k + 1) (step s (events k)) l) :
      Visits step events k (some s) (s :: l)

end Cvise
