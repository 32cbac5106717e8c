import Cvise.HintState
import Cvise.RoundRobin
import Cvise.Transition
import Mathlib.Data.List.Rotate

namespace Cvise
set_option autoImplicit true

namespace HintState

/-- The per-type states, in the order in which they come next. -/
def queue (s : HintState) : List PerTypeHintState := s.perTypeStates.rotate s.ptr

theorem queue_eq_nil {s : HintState} : s.queue = [] ↔ s.perTypeStates = [] := List.rotate_eq_nil_iff

theorem split_of_queue {s : HintState} (h : s.queue = u :: q) :
    ∃ a b, s.perTypeStates = a ++ u :: b ∧ s.ptr = a.length ∧ q = b ++ a := by
  have hne : s.perTypeStates ≠ [] := by
    rw [Ne, ← queue_eq_nil, h]
    exact List.cons_ne_nil _ _
  have hlt := s.ptr_lt hne
  have hsplit : s.perTypeStates.drop s.ptr ++ s.perTypeStates.take s.ptr = u :: q := by
    rw [← h, queue, List.rotate_eq_drop_append_take (Nat.le_of_lt hlt)]
  rw [List.drop_eq_getElem_cons hlt, List.cons_append] at hsplit
  obtain ⟨hu, hq⟩ := List.cons.inj hsplit
  refine ⟨s.perTypeStates.take s.ptr, s.perTypeStates.drop (s.ptr + 1), ?_, ?_, hq.symm⟩
  · rw [← hu, List.getElem_cons_drop, List.take_append_drop]
  · rw [List.length_take, Nat.min_eq_left (Nat.le_of_lt hlt)]

theorem currentSubstate_of_queue {s : HintState} (h : s.queue = u :: q) :
    s.currentSubstate = some u := by
  obtain ⟨a, b, hstates, hptr, _⟩ := split_of_queue h
  rw [currentSubstate, hstates, hptr, List.getElem?_append_right (Nat.le_refl _), Nat.sub_self]
  rfl

theorem currentSubstate_of_queue_nil {s : HintState} (h : s.queue = []) : s.currentSubstate = none := by
  rw [currentSubstate, queue_eq_nil.1 h]
  rfl

theorem withStates_queue (s : HintState) (states : List PerTypeHintState) (n : Nat) :
    (s.withStates states n).queue = states.rotate n := List.rotate_mod states n

theorem advance_special {s : HintState} (h : s.queue = []) : s.advance rnd = none := by
  rw [advance, currentSubstate_of_queue_nil h]

theorem advance_last {s : HintState} (h : s.queue = [u]) (hu : u.advance rnd = none) :
    s.advance rnd = none := by
  obtain ⟨a, b, hstates, _, hq⟩ := split_of_queue h
  obtain ⟨rfl, rfl⟩ := List.append_eq_nil_iff.1 hq.symm
  rw [advance, currentSubstate_of_queue h]
  simp only [hu, hstates]
  rfl

/-- An exhausted type is deleted, and the next one comes. -/
theorem advance_exhausted {s : HintState} (h : s.queue = u :: q) (hq : q ≠ [])
    (hu : u.advance rnd = none) : ∃ s', s.advance rnd = some s' ∧ s'.queue = q := by
  obtain ⟨a, b, hstates, hptr, rfl⟩ := split_of_queue h
  have hlength : s.perTypeStates.length ≠ 1 := by
    have hpos := List.length_pos_of_ne_nil hq
    rw [List.length_append] at hpos
    rw [hstates, List.length_append, List.length_cons]
    omega
  refine ⟨s.withStates (s.perTypeStates.eraseIdx s.ptr) s.ptr, ?_, ?_⟩
  · rw [advance, currentSubstate_of_queue h]
    simp only [hu]
    rw [if_neg hlength]
  · rw [withStates_queue, hstates, hptr, List.eraseIdx_append_of_length_le (Nat.le_refl _),
      Nat.sub_self, List.eraseIdx_cons_zero, List.rotate_append_length_eq]

/-- A type that goes on comes again after all others. -/
theorem advance_goesOn {s : HintState} (h : s.queue = u :: q) (hu : u.advance rnd = some v) :
    ∃ s', s.advance rnd = some s' ∧ s'.queue = q ++ [v] := by
  obtain ⟨a, b, hstates, hptr, rfl⟩ := split_of_queue h
  refine ⟨s.withStates (s.perTypeStates.set s.ptr v) (s.ptr + 1), ?_, ?_⟩
  · rw [advance, currentSubstate_of_queue h]
    simp only [hu]
  · have hlength : s.ptr + 1 = (a ++ [v]).length := by rw [hptr, List.length_append]; rfl
    rw [withStates_queue, hlength, hstates, hptr, List.set_append_right _ _ (Nat.le_refl _),
      Nat.sub_self, List.set_cons_zero, ← List.singleton_append, ← List.append_assoc,
      List.rotate_append_length_eq, List.append_assoc]

end HintState

/-- The visits of the current substates, each with its time. -/
def turns (k : Nat) (l : List HintState) : List (PerTypeHintState × Nat) :=
  (l.zipIdx k).filterMap fun e => e.1.currentSubstate.map fun u => (u, e.2)

/-- The visits of a type are all that its own enumeration has. -/
def ExhaustedBy (rnd : Nat → Nat) (u : PerTypeHintState) (visits : List (PerTypeHintState × Nat)) : Prop :=
  Enumeration (fun v r => v.advance r) rnd u (visits.filter (·.1.type = u.type))

theorem turns_cons (h : s.currentSubstate = some u) : turns k (s :: l) = (u, k) :: turns (k + 1) l := by
  rw [turns, List.zipIdx_cons, List.filterMap_cons, h]
  rfl

theorem turns_append : turns k (l ++ l') = turns k l ++ turns (k + l.length) l' := by
  rw [turns, List.zipIdx_append, List.filterMap_append]
  rfl

/-- The iteration visits the substates as a queue serves its elements. -/
theorem visits_of_roundRobin {s : HintState}
    (h : RoundRobin (fun u r => PerTypeHintState.advance r u) rnd k s.queue l) :
    ∃ L, Visits (fun s r => HintState.advance r s) rnd k (some s) L ∧ turns k L = l ∧
      (s.queue ≠ [] → ∀ t ∈ L, t.queue ≠ []) := by
  generalize hq : s.queue = q at h
  induction h generalizing s with
  | @finished k =>
    refine ⟨[s], .next ?_, ?_, fun hne => absurd rfl hne⟩
    · rw [HintState.advance_special hq]
      exact .finished
    · rw [turns, List.zipIdx_singleton, List.filterMap_cons,
        HintState.currentSubstate_of_queue_nil hq]
      rfl
  | @exhausted u k q l hstep hrest ih =>
    have hcur := HintState.currentSubstate_of_queue hq
    by_cases hempty : q = []
    · subst hempty
      cases hrest
      refine ⟨[s], .next ?_, turns_cons hcur, ?_⟩
      · rw [HintState.advance_last hq hstep]
        exact .finished
      · intro hne t ht
        rw [List.mem_singleton.1 ht, hq]
        exact hne
    · obtain ⟨s', hs', hq'⟩ := HintState.advance_exhausted hq hempty hstep
      obtain ⟨L, hL, hturns, hne⟩ := ih hq'
      refine ⟨s :: L, .next (by rwa [hs']), by rw [turns_cons hcur, hturns], ?_⟩
      intro _ t ht
      rcases List.mem_cons.1 ht with rfl | ht
      · rw [hq]
        exact List.cons_ne_nil _ _
      · exact hne hempty t ht
  | @goesOn u k v q l hstep hrest ih =>
    have hcur := HintState.currentSubstate_of_queue hq
    obtain ⟨s', hs', hq'⟩ := HintState.advance_goesOn hq hstep
    obtain ⟨L, hL, hturns, hne⟩ := ih hq'
    refine ⟨s :: L, .next (by rwa [hs']), by rw [turns_cons hcur, hturns], ?_⟩
    intro _ t ht
    rcases List.mem_cons.1 ht with rfl | ht
    · rw [hq]
      exact List.cons_ne_nil _ _
    · exact hne (List.append_ne_nil_of_right_ne_nil _ (List.cons_ne_nil _ _)) t ht

theorem PerTypeHintState.advance_type (h : PerTypeHintState.advance rnd u = some v) : v.type = u.type := by
  obtain ⟨_, _, rfl⟩ := Option.map_eq_some_iff.1 h
  rfl

theorem ExhaustedBy.append (h : ExhaustedBy rnd u visits) (hnone : ∀ v ∈ visits', v.1.type ≠ u.type)
    (h' : visits = visits₀ ++ visits') : ExhaustedBy rnd u visits₀ := by
  have hnil : visits'.filter (·.1.type = u.type) = [] :=
    List.filter_eq_nil_iff.2 fun v hv heq => hnone v hv (of_decide_eq_true heq)
  rw [ExhaustedBy, h', List.filter_append, hnil, List.append_nil] at h
  exact h

theorem ExhaustedBy.not_visited (h : ExhaustedBy rnd u visits)
    (h' : ExhaustedBy rnd u (visits ++ visits')) : ∀ v ∈ visits', v.1.type ≠ u.type := by
  rw [ExhaustedBy, List.filter_append] at h'
  intro v hv heq
  have hmem : v ∈ visits'.filter (·.1.type = u.type) := List.mem_filter.2 ⟨hv, decide_eq_true heq⟩
  rw [Enumeration.eq_of_append h h'] at hmem
  cases hmem

theorem visits_special {s : HintState}
    (h : Visits (fun s r => HintState.advance r s) rnd k (some s) L) (hs : s.queue = []) : L = [s] := by
  cases h with
  | next h =>
    rw [HintState.advance_special hs] at h
    cases h
    rfl

/-- Delta debugging is finite whatever the random numbers are. -/
theorem PerTypeHintState.within_binary (hu : u.underlyingState = .binary s) :
    ∃ n, Within (fun v r => PerTypeHintState.advance r v) n u := by
  refine ⟨_, Within.of_measure (fun v => ∃ w, v.underlyingState = .binary w)
    (fun v => v.underlyingState.stepsLeft) ?_ u ⟨s, hu⟩ (Nat.le_refl _)⟩
  rintro v r v' ⟨w, hw⟩ hstep
  obtain ⟨next, hnext, rfl⟩ := Option.map_eq_some_iff.1 hstep
  rw [hw] at hnext ⊢
  obtain ⟨w', hw', rfl⟩ := Option.map_eq_some_iff.1 hnext
  exact ⟨⟨w', rfl⟩, BinaryState.advance_stepsLeft hw'⟩

/-- The enumerations of all hint types, interleaved. -/
theorem roundRobin_fair (tmpDir : DirName) (states : List PerTypeHintState)
    (special : List SpecialHintState) (std : Option Str) (rnd : Nat → Nat)
    (hnodup : (states.map (·.type)).Nodup)
    (hfinite : ∀ u ∈ states, ∃ n, Within (fun v r => PerTypeHintState.advance r v) n u) :
    ∃ L, Visits (fun s r => HintState.advance r s) rnd 0
        (some (HintState.create tmpDir states special std)) L ∧
      (∀ u ∈ states, ExhaustedBy rnd u (turns 0 L)) ∧
      (∀ before u mid w after, turns 0 L = before ++ u :: mid ++ w :: after → u.1.type = w.1.type →
        (∀ v ∈ mid, v.1.type ≠ u.1.type) → ∀ x ∈ states, x.type ≠ u.1.type →
          ¬ ExhaustedBy rnd x (before ++ [u]) → (mid.map (·.1.type)).count x.type = 1) ∧
      ∀ before s after, L = before ++ s :: after →
        (after = [] ↔ ∀ u ∈ states, ExhaustedBy rnd u (turns 0 (before ++ [s]))) := by
  have hqueue : (HintState.create tmpDir states special std).queue =
      states.insertionSort (·.type ≤ ·.type) := List.rotate_zero _
  have hperm : (states.insertionSort (·.type ≤ ·.type)).Perm states := List.perm_insertionSort _ _
  obtain ⟨l, hl⟩ : ∃ l, RoundRobin (fun u r => PerTypeHintState.advance r u) rnd 0
      (HintState.create tmpDir states special std).queue l := by
    apply RoundRobin.exists_of_within
    intro u hu
    rw [hqueue] at hu
    exact hfinite u (hperm.mem_iff.1 hu)
  obtain ⟨L, hL, rfl, hne⟩ := visits_of_roundRobin hl
  rw [hqueue] at hl
  have hnodup' : ((states.insertionSort (·.type ≤ ·.type)).map (·.type)).Nodup :=
    (hperm.map _).nodup_iff.2 hnodup
  have hkey : ∀ (u : PerTypeHintState) r v, PerTypeHintState.advance r u = some v → v.type = u.type :=
    fun _ _ _ h => PerTypeHintState.advance_type h
  have hall : ∀ u ∈ states, ExhaustedBy rnd u (turns 0 L) :=
    fun u hu => hl.enumeration hkey hnodup' u (hperm.mem_iff.2 hu)
  refine ⟨L, hL, hall, ?_, ?_⟩
  · intro before u mid w after hsplit huw hmid x hx hxu hleft
    apply hl.between hkey hnodup' hsplit huw hmid _ hxu
    by_contra hnone
    apply hleft
    have hsplit' : turns 0 L = before ++ [u] ++ (mid ++ w :: after) := by
      rw [hsplit]
      simp only [List.append_assoc, List.cons_append, List.nil_append]
    refine (hall x hx).append ?_ hsplit'
    intro v hv heq
    apply hnone
    rw [← heq, List.map_append, List.mem_append]
    rcases List.mem_append.1 hv with hv | hv
    · exact .inl (List.mem_map.2 ⟨v, hv, rfl⟩)
    · rcases List.mem_cons.1 hv with rfl | hv
      · exact absurd (heq.symm.trans huw.symm) hxu
      · exact .inr (List.mem_map.2 ⟨v, hv, rfl⟩)
  · intro before s after hsplit
    constructor
    · rintro rfl
      rw [← hsplit]
      exact hall
    · intro hdone
      cases hstates : (HintState.create tmpDir states special std).queue with
      | nil =>
        rw [visits_special hL hstates] at hsplit
        exact (List.append_eq_singleton_iff.1 hsplit.symm).elim
          (fun h => (List.cons.inj h.2).2) fun h => nomatch h.2
      | cons u₀ q =>
        cases after with
        | nil => rfl
        | cons t after =>
          exfalso
          have hsplit' : L = (before ++ [s]) ++ t :: after := by
            rw [hsplit, List.append_assoc, List.singleton_append]
          have ht : t ∈ L := hsplit' ▸ List.mem_append_right _ List.mem_cons_self
          obtain ⟨v, q', hv⟩ := List.exists_cons_of_ne_nil
            (hne (by rw [hstates]; exact List.cons_ne_nil _ _) t ht)
          obtain ⟨visits, hturns⟩ : ∃ visits,
              turns 0 L = turns 0 (before ++ [s]) ++ (v, (before ++ [s]).length) :: visits := by
            rw [hsplit', turns_append, turns_cons (HintState.currentSubstate_of_queue hv), Nat.zero_add]
            exact ⟨_, rfl⟩
          have hmem : v.type ∈ (turns 0 L).map (·.1.type) := by
            rw [hturns]
            exact List.mem_map.2 ⟨_, List.mem_append_right _ List.mem_cons_self, rfl⟩
          rw [hl.mem_keys hkey, (hperm.map _).mem_iff] at hmem
          obtain ⟨x, hx, hxv⟩ := List.mem_map.1 hmem
          have hx' := hall x hx
          rw [hturns] at hx'
          exact (hdone x hx).not_visited hx' _ List.mem_cons_self hxv.symm

def twoTypes : List PerTypeHintState :=
  [⟨[98], 1, .binary ⟨3, 3, 0, by decide⟩⟩, ⟨[97], 0, .binary ⟨1, 1, 0, by decide⟩⟩]

theorem roundRobin_fair_twoTypes :
    ∃ L, Visits (fun s r => HintState.advance r s) (fun _ => 0) 0
        (some (HintState.create 0 twoTypes [] none)) L ∧
      (∀ u ∈ twoTypes, ExhaustedBy (fun _ => 0) u (turns 0 L)) ∧
      (∀ before u mid w after, turns 0 L = before ++ u :: mid ++ w :: after → u.1.type = w.1.type →
        (∀ v ∈ mid, v.1.type ≠ u.1.type) → ∀ x ∈ twoTypes, x.type ≠ u.1.type →
          ¬ ExhaustedBy (fun _ => 0) x (before ++ [u]) → (mid.map (·.1.type)).count x.type = 1) ∧
      ∀ before s after, L = before ++ s :: after →
        (after = [] ↔ ∀ u ∈ twoTypes, ExhaustedBy (fun _ => 0) u (turns 0 (before ++ [s]))) := by
  apply roundRobin_fair 0 twoTypes [] none (fun _ => 0) (by decide)
  intro u hu
  rcases List.mem_cons.1 hu with rfl | hu
  · exact PerTypeHintState.within_binary rfl
  · rcases List.mem_singleton.1 hu with rfl
    exact PerTypeHintState.within_binary rfl

end Cvise
