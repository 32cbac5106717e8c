import Mathlib.Data.List.Nodup

namespace Cvise
set_option autoImplicit true

variable {σ E κ : Type} {step : σ → E → Option σ} {events : Nat → E} {key : σ → κ}

/-- What an enumeration leads through from `u` on, up to its end, each with the time of its event. -/
inductive Enumeration (step : σ → E → Option σ) (events : Nat → E) : σ → List (σ × Nat) → Prop
  | last (h : step u (events k) = none) : Enumeration step events u [(u, k)]
  | next (h : step u (events k) = some v) (hv : Enumeration step events v l) :
      Enumeration step events u ((u, k) :: l)

/-- The enumeration has at most `n` steps from `u` on. -/
inductive Within (step : σ → E → Option σ) : Nat → σ → Prop
  | last (h : ∀ e, step u e = none) : Within step n u
  | next (h : ∀ e v, step u e = some v → Within step n v) : Within step (n + 1) u

/-- The elements of a queue that are served one after another, the first at the time `k`. Each of them
goes on and then waits at the end of the queue, or it is exhausted. -/
inductive RoundRobin (step : σ → E → Option σ) (events : Nat → E) :
    Nat → List σ → List (σ × Nat) → Prop
  | finished : RoundRobin step events k [] []
  | exhausted (h : step u (events k) = none) (hrest : RoundRobin step events (k + 1) q l) :
      RoundRobin step events k (u :: q) ((u, k) :: l)
  | goesOn (h : step u (events k) = some v) (hrest : RoundRobin step events (k + 1) (q ++ [v]) l) :
      RoundRobin step events k (u :: q) ((u, k) :: l)

/-- A measure that each step makes smaller bounds the steps. -/
theorem Within.of_measure (P : σ → Prop) (μ : σ → Nat)
    (hstep : ∀ u e v, P u → step u e = some v → P v ∧ μ v < μ u) (u : σ) (hu : P u) (hn : μ u ≤ n) :
    Within step n u := by
  induction n generalizing u with
  | zero =>
    apply Within.last
    intro e
    cases he : step u e with
    | none => rfl
    | some v =>
      have hlt := (hstep u e v hu he).2
      omega
  | succ n ih =>
    apply Within.next
    intro e v he
    obtain ⟨hv, hlt⟩ := hstep u e v hu he
    exact ih v hv (by omega)

theorem Enumeration.eq_of_append (h : Enumeration step events u l) (h' : Enumeration step events u (l ++ l')) :
    l' = [] := by
  induction h with
  | last hu =>
    cases h' with
    | last => rfl
    | next hv _ => rw [hu] at hv; cases hv
  | next hu hv ih =>
    rw [List.cons_append] at h'
    generalize hl : _ ++ l' = r at h'
    cases h' with
    | last hnone => rw [hu] at hnone; cases hnone
    | next hu' hv' =>
      rw [hu] at hu'
      cases hu'
      exact ih (hl ▸ hv')

/-- The first element with a property determines what stands before it. -/
theorem before_first {p : σ → Prop} (h : a ++ x :: b = c ++ y :: d) (ha : ∀ z ∈ a, ¬ p z) (hx : p x)
    (hc : ∀ z ∈ c, ¬ p z) (hy : p y) : a = c := by
  induction a generalizing c with
  | nil =>
    cases c with
    | nil => rfl
    | cons z c => exact absurd ((List.cons.inj h).1 ▸ hx) (hc z List.mem_cons_self)
  | cons z a ih =>
    cases c with
    | nil => exact absurd ((List.cons.inj h).1 ▸ hy) (ha z List.mem_cons_self)
    | cons z' c =>
      rw [List.cons_append, List.cons_append] at h
      obtain ⟨rfl, htail⟩ := List.cons.inj h
      rw [ih htail (fun w hw => ha w (List.mem_cons_of_mem _ hw))
        fun w hw => hc w (List.mem_cons_of_mem _ hw)]

namespace RoundRobin

/-- The queue gets empty; the steps that are left in all enumerations together get fewer. -/
theorem exists_of_bounds (hq : List.Forall₂ (Within step) ns q) : ∃ l, RoundRobin step events k q l := by
  obtain ⟨m, hm⟩ : ∃ m, ns.sum + ns.length ≤ m := ⟨_, Nat.le_refl _⟩
  induction m generalizing ns k q with
  | zero =>
    cases hq with
    | nil => exact ⟨[], .finished⟩
    | cons => rw [List.length_cons] at hm; omega
  | succ m ih =>
    cases hq with
    | nil => exact ⟨[], .finished⟩
    | @cons n u ns q hu hq =>
      rw [List.sum_cons, List.length_cons] at hm
      cases hnext : step u (events k) with
      | none =>
        obtain ⟨l, hl⟩ := ih hq (by omega)
        exact ⟨_, .exhausted hnext hl⟩
      | some v =>
        cases hu with
        | last hnone => rw [hnone] at hnext; cases hnext
        | next hv =>
          obtain ⟨l, hl⟩ := ih (List.rel_append hq (.cons (hv _ _ hnext) .nil))
            (by rw [List.sum_append, List.length_append]; simp; omega)
          exact ⟨_, .goesOn hnext hl⟩

theorem exists_of_within (hq : ∀ u ∈ q, ∃ n, Within step n u) : ∃ l, RoundRobin step events k q l := by
  have hbounds : ∃ ns, List.Forall₂ (Within step) ns q := by
    clear k
    induction q with
    | nil => exact ⟨[], .nil⟩
    | cons u q ih =>
      obtain ⟨n, hn⟩ := hq u List.mem_cons_self
      obtain ⟨ns, hns⟩ := ih fun v hv => hq v (List.mem_cons_of_mem _ hv)
      exact ⟨n :: ns, .cons hn hns⟩
  obtain ⟨ns, hns⟩ := hbounds
  exact exists_of_bounds hns

theorem waiting_first (h : RoundRobin step events k (q ++ q') l) : ∃ l', l.map Prod.fst = q ++ l' := by
  induction q generalizing k q' l with
  | nil => exact ⟨_, rfl⟩
  | cons u q ih =>
    rw [List.cons_append] at h
    cases h with
    | exhausted _ hrest =>
      obtain ⟨l', hl'⟩ := ih hrest
      exact ⟨l', by rw [List.map_cons, hl', List.cons_append]⟩
    | goesOn _ hrest =>
      rw [List.append_assoc] at hrest
      obtain ⟨l', hl'⟩ := ih hrest
      exact ⟨l', by rw [List.map_cons, hl', List.cons_append]⟩

section
variable (hkey : ∀ u e v, step u e = some v → key v = key u)
include hkey

theorem mem_keys (h : RoundRobin step events k q l) :
    x ∈ l.map (fun v => key v.1) ↔ x ∈ q.map key := by
  induction h with
  | finished => exact Iff.rfl
  | exhausted _ _ ih => rw [List.map_cons, List.map_cons, List.mem_cons, List.mem_cons, ih]
  | goesOn hstep _ ih =>
    rw [List.map_cons, List.map_cons, List.mem_cons, List.mem_cons, ih, List.map_append,
      List.mem_append, List.map_singleton, List.mem_singleton, hkey _ _ _ hstep]
    tauto

theorem nodup_goesOn (hnodup : ((u :: q).map key).Nodup) (hstep : step u e = some v) :
    ((q ++ [v]).map key).Nodup := by
  rw [List.map_append, List.map_singleton, hkey u e v hstep]
  rw [List.map_cons] at hnodup
  exact (List.perm_append_singleton _ _).nodup_iff.2 hnodup

theorem enumeration [DecidableEq κ] (h : RoundRobin step events k q l) (hnodup : (q.map key).Nodup) :
    ∀ u ∈ q, Enumeration step events u (l.filter (key ·.1 = key u)) := by
  induction h with
  | finished => exact fun u hu => absurd hu List.not_mem_nil
  | @exhausted u k q l hstep hrest ih =>
    rw [List.map_cons, List.nodup_cons] at hnodup
    intro w hw
    rcases List.mem_cons.1 hw with rfl | hw
    · have hnone : l.filter (key ·.1 = key w) = [] := by
        apply List.filter_eq_nil_iff.2
        intro v hv heq
        apply hnodup.1
        rw [← mem_keys hkey hrest, ← of_decide_eq_true heq]
        exact List.mem_map.2 ⟨v, hv, rfl⟩
      rw [List.filter_cons_of_pos (by simp), hnone]
      exact .last hstep
    · have hne : key u ≠ key w := fun heq => hnodup.1 (heq ▸ List.mem_map.2 ⟨w, hw, rfl⟩)
      rw [List.filter_cons_of_neg (by simpa using hne)]
      exact ih hnodup.2 w hw
  | @goesOn u k v q l hstep hrest ih =>
    have hrest' := ih (nodup_goesOn hkey hnodup hstep)
    rw [List.map_cons, List.nodup_cons] at hnodup
    intro w hw
    rcases List.mem_cons.1 hw with rfl | hw
    · rw [List.filter_cons_of_pos (by simp)]
      have hv := hrest' v (List.mem_append_right _ List.mem_cons_self)
      rw [hkey _ _ _ hstep] at hv
      exact .next hstep hv
    · have hne : key u ≠ key w := fun heq => hnodup.1 (heq ▸ List.mem_map.2 ⟨w, hw, rfl⟩)
      rw [List.filter_cons_of_neg (by simpa using hne)]
      exact hrest' w (List.mem_append_left _ hw)

/-- Between two turns of an element, each other one that still has turns has one. -/
theorem between [BEq κ] [LawfulBEq κ] (h : RoundRobin step events k q l) (hnodup : (q.map key).Nodup)
    (hl : l = before ++ u :: mid ++ w :: after) (huw : key u.1 = key w.1)
    (hmid : ∀ v ∈ mid, key v.1 ≠ key u.1) (hx : x ∈ (mid ++ after).map fun v => key v.1)
    (hne : x ≠ key u.1) : (mid.map fun v => key v.1).count x = 1 := by
  induction h generalizing before with
  | finished => simp at hl
  | @exhausted u₀ k q l hstep hrest ih =>
    cases before with
    | nil =>
      -- An exhausted element has no more turns.
      obtain ⟨rfl, rfl⟩ := List.cons.inj hl
      exfalso
      rw [List.map_cons, List.nodup_cons] at hnodup
      apply hnodup.1
      rw [← mem_keys hkey hrest, huw]
      exact List.mem_map.2 ⟨w, List.mem_append_right _ List.mem_cons_self, rfl⟩
    | cons b before =>
      rw [List.map_cons, List.nodup_cons] at hnodup
      exact ih hnodup.2 (List.cons.inj hl).2
  | @goesOn u₀ k v q l hstep hrest ih =>
    have hnodup' := nodup_goesOn hkey hnodup hstep
    cases before with
    | cons b before => exact ih hnodup' (List.cons.inj hl).2
    | nil =>
      rw [List.nil_append, List.cons_append] at hl
      obtain ⟨rfl, htail⟩ := List.cons.inj hl
      rw [List.map_cons, List.nodup_cons] at hnodup
      have hv : key v = key u₀ := hkey _ _ _ hstep
      have hothers : ∀ z ∈ q, key z ≠ key u₀ := fun z hz heq =>
        hnodup.1 (heq ▸ List.mem_map.2 ⟨z, hz, rfl⟩)
      have hwaiting := hrest
      rw [← List.append_nil (q ++ [v])] at hwaiting
      obtain ⟨l', hl'⟩ := waiting_first hwaiting
      rw [htail, List.map_append, List.map_cons, List.append_assoc] at hl'
      -- All that wait have other keys, so the next turn comes right after them.
      have hmid' : mid.map Prod.fst = q := by
        apply before_first (p := fun z => key z = key u₀) hl' _ huw.symm hothers hv
        intro z hz
        obtain ⟨w, hw, rfl⟩ := List.mem_map.1 hz
        exact hmid w hw
      have hkeys : (mid.map fun v => key v.1) = q.map key := by rw [← hmid', List.map_map]; rfl
      rw [hkeys]
      apply List.count_eq_one_of_mem hnodup.2
      have hx' : x ∈ l.map fun v => key v.1 := by
        rw [htail, List.map_append, List.map_cons]
        rw [List.map_append] at hx
        exact List.mem_append.2 ((List.mem_append.1 hx).imp id (List.mem_cons_of_mem _))
      rw [mem_keys hkey hrest, List.map_append, List.mem_append] at hx'
      rcases hx' with hx' | hx'
      · exact hx'
      · rw [List.map_singleton, List.mem_singleton, hv] at hx'
        exact absurd hx' hne

end

end RoundRobin

end Cvise
