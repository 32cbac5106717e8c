import Cvise.ElementaryState
import Cvise.Transition
import Mathlib.Data.List.Nodup
import Mathlib.Data.List.Range

namespace Cvise
set_option autoImplicit true

namespace SubsegmentState

/-- What happens to a state: its window fails, or it succeeds and this number of instances is left. -/
inductive Operation where
  | advance (rnd : Nat)
  | advanceOnSuccess (rnd instances : Nat)

def apply (s : SubsegmentState) : Operation → Option SubsegmentState
  | .advance rnd => s.advance rnd
  | .advanceOnSuccess rnd instances => s.advanceOnSuccess rnd instances

/-- The window and the one that its round began with are inside, and the chunk is from `lo` to `hi`. -/
structure Valid (lo hi : Nat) (s : SubsegmentState) : Prop where
  window : s.index + s.chunk ≤ s.instances
  first : s.start + s.chunk ≤ s.instances
  lower : lo ≤ s.chunk
  upper : s.chunk ≤ hi
  limit : s.maxChunk = hi

/-- What `create` answers for `n` instances and the chunk `c`. -/
inductive Created (n c hi : Nat) : Option SubsegmentState → Prop
  | none (h : n < c ∨ hi < c) : Created n c hi none
  | round (hfirst : t + c ≤ n) (hupper : c ≤ hi) : Created n c hi (some ⟨n, c, hi, t, t⟩)

theorem create_created (rnd n c hi : Nat) (hc : 0 < c) : Created n c hi (create rnd n c hi hc) := by
  rw [create]
  split
  · rename_i h
    exact .none h
  · rename_i h
    obtain ⟨hn, hupper⟩ := not_or.1 h
    have hmod : rnd % (n - c + 1) < n - c + 1 := Nat.mod_lt rnd (Nat.succ_pos (n - c))
    refine .round ?_ (Nat.not_lt.1 hupper)
    rw [randint]
    omega

theorem Created.valid {r : Option SubsegmentState} (h : Created n c hi r) (hlower : lo ≤ c) :
    ∀ s, r = some s → Valid lo hi s := by
  intro s hs
  cases h with
  | none => cases hs
  | round hfirst hupper =>
    cases hs
    exact ⟨hfirst, hfirst, hlower, hupper, rfl⟩

namespace Valid
variable {s s' : SubsegmentState}

theorem advance (h : Valid lo hi s) (hs : s.advance rnd = some s') : Valid lo hi s' := by
  have hwindow := h.window
  rw [SubsegmentState.advance] at hs
  split at hs
  · rw [h.limit] at hs
    exact (create_created _ _ _ _ _).valid (Nat.le_succ_of_le h.lower) s' hs
  · cases hs
    refine ⟨?_, h.first, h.lower, h.upper, h.limit⟩
    simp only
    split
    · omega
    · omega

theorem advanceOnSuccess (h : Valid lo hi s) (hs : s.advanceOnSuccess rnd n = some s') :
    Valid lo hi s' := by
  rw [SubsegmentState.advanceOnSuccess] at hs
  split at hs
  · cases hs
  · rename_i hn
    simp only at hs
    split at hs
    · rw [h.limit] at hs
      exact (create_created _ _ _ _ _).valid (Nat.le_succ_of_le h.lower) s' hs
    · cases hs
      refine ⟨?_, ?_, h.lower, h.upper, h.limit⟩
      · simp only
        split
        · omega
        · omega
      · simp only
        split
        · omega
        · omega

theorem apply (h : Valid lo hi s) (hs : s.apply op = some s') : Valid lo hi s' := by
  cases op with
  | advance rnd => exact h.advance hs
  | advanceOnSuccess rnd n => exact h.advanceOnSuccess hs

end Valid

/-- The states that are visited from a state on, when each window fails. -/
abbrev Advances (rnd : Nat → Nat) : Nat → Option SubsegmentState → List SubsegmentState → Prop :=
  Visits (fun s r => s.advance r) rnd

variable {P : List SubsegmentState → Prop}

/-- After its wrapover, a round goes on up to where it began. The next one follows. -/
theorem advances_wrapped (hfirst : t + c ≤ n) (hi' : i + d + 1 = t)
    (hnext : ∀ k r, ∃ l, Advances rnd k (create r n (c + 1) hi (Nat.succ_pos c)) l ∧ P l) :
    ∃ l, Advances rnd k (some ⟨n, c, hi, i, t⟩)
      ((List.range' i (d + 1)).map (fun i => ⟨n, c, hi, i, t⟩) ++ l) ∧ P l := by
  induction d generalizing i k with
  | zero =>
    obtain ⟨l, hl, hp⟩ := hnext (k + 1) (rnd k)
    refine ⟨l, .next ?_, hp⟩
    rw [advance]
    simp only
    rw [if_pos (.inl hi')]
    exact hl
  | succ d ih =>
    obtain ⟨l, hl, hp⟩ := ih (i := i + 1) (k := k + 1) (by omega)
    refine ⟨l, ?_, hp⟩
    rw [List.range'_succ, List.map_cons, List.cons_append]
    apply Visits.next
    rw [advance]
    simp only
    rw [if_neg (by omega), if_neg (by omega)]
    exact hl

theorem advances_round (hfirst : t + c ≤ n) (ht : t ≤ i) (hi' : i + d + c = n)
    (hnext : ∀ k r, ∃ l, Advances rnd k (create r n (c + 1) hi (Nat.succ_pos c)) l ∧ P l) :
    ∃ l, Advances rnd k (some ⟨n, c, hi, i, t⟩)
      ((List.range' i (d + 1) ++ List.range' 0 t).map (fun i => ⟨n, c, hi, i, t⟩) ++ l) ∧ P l := by
  induction d generalizing i k with
  | zero =>
    cases t with
    | zero =>
      obtain ⟨l, hl, hp⟩ := hnext (k + 1) (rnd k)
      refine ⟨l, .next ?_, hp⟩
      rw [advance]
      simp only
      rw [if_pos (.inr ⟨by omega, trivial⟩)]
      exact hl
    | succ t =>
      obtain ⟨l, hl, hp⟩ := advances_wrapped (i := 0) (d := t) (k := k + 1) hfirst (by omega) hnext
      refine ⟨l, .next ?_, hp⟩
      rw [advance]
      simp only
      rw [if_neg (by omega), if_pos (by omega)]
      exact hl
  | succ d ih =>
    obtain ⟨l, hl, hp⟩ := ih (i := i + 1) (k := k + 1) (by omega) (by omega)
    refine ⟨l, ?_, hp⟩
    rw [List.range'_succ, List.cons_append, List.map_cons, List.cons_append]
    apply Visits.next
    rw [advance]
    simp only
    rw [if_neg (by omega), if_neg (by omega)]
    exact hl

/-- Each window with a chunk from `c` to `hi` is there once, in the order of the chunks. -/
structure Enumerates (n c hi : Nat) (l : List SubsegmentState) : Prop where
  instances : ∀ s ∈ l, s.instances = n
  nodup : (l.map fun s => (s.chunk, s.index)).Nodup
  mem : ∀ j i, (j, i) ∈ l.map (fun s => (s.chunk, s.index)) ↔ c ≤ j ∧ j ≤ hi ∧ i + j ≤ n
  sorted : (l.map (·.chunk)).Pairwise (· ≤ ·)

theorem Enumerates.nil (h : n < c ∨ hi < c) : Enumerates n c hi [] where
  instances := fun s hs => absurd hs List.not_mem_nil
  nodup := List.nodup_nil
  mem j i := by
    constructor
    · exact fun h => absurd h List.not_mem_nil
    · omega
  sorted := List.Pairwise.nil

theorem Enumerates.round (h : Enumerates n (c + 1) hi l) (hfirst : t + c ≤ n) (hupper : c ≤ hi) :
    Enumerates n c hi ((List.range' t (n - c - t + 1) ++ List.range' 0 t).map
      (fun i => ⟨n, c, hi, i, t⟩) ++ l) := by
  have hindices : ∀ i, i ∈ List.range' t (n - c - t + 1) ++ List.range' 0 t ↔ i + c ≤ n := by
    intro i
    rw [List.mem_append, List.mem_range'_1, List.mem_range'_1]
    omega
  have hkeys : ((List.range' t (n - c - t + 1) ++ List.range' 0 t).map
      (fun i => (⟨n, c, hi, i, t⟩ : SubsegmentState)) ++ l).map (fun s => (s.chunk, s.index)) =
      (List.range' t (n - c - t + 1) ++ List.range' 0 t).map (fun i => (c, i)) ++
        l.map fun s => (s.chunk, s.index) := by
    rw [List.map_append, List.map_map]
    rfl
  constructor
  · intro s hs
    rcases List.mem_append.1 hs with hs | hs
    · obtain ⟨i, _, rfl⟩ := List.mem_map.1 hs
      rfl
    · exact h.instances s hs
  · rw [hkeys, List.nodup_append]
    refine ⟨?_, h.nodup, ?_⟩
    · apply List.Nodup.map (fun i j hij => congrArg Prod.snd hij)
      rw [List.nodup_append]
      refine ⟨List.nodup_range', List.nodup_range', fun i hi j hj => ?_⟩
      rw [List.mem_range'_1] at hi hj
      omega
    · intro a ha b hb heq
      subst heq
      obtain ⟨i, _, rfl⟩ := List.mem_map.1 ha
      have hle := ((h.mem c i).1 hb).1
      omega
  · intro j i
    rw [hkeys, List.mem_append, h.mem, List.mem_map]
    constructor
    · rintro (⟨i', hi', heq⟩ | hlater)
      · cases heq
        have hinside := (hindices i).1 hi'
        exact ⟨Nat.le_refl _, hupper, hinside⟩
      · omega
    · intro hinside
      by_cases hj : j = c
      · subst hj
        exact .inl ⟨i, (hindices i).2 hinside.2.2, rfl⟩
      · exact .inr (by omega)
  · rw [List.map_append, List.map_map, List.pairwise_append]
    refine ⟨?_, h.sorted, ?_⟩
    · rw [List.pairwise_map]
      exact List.pairwise_of_forall fun _ _ => Nat.le_refl _
    · intro a ha b hb
      obtain ⟨i, _, rfl⟩ := List.mem_map.1 ha
      obtain ⟨s, hs, rfl⟩ := List.mem_map.1 hb
      have hle := ((h.mem s.chunk s.index).1 (List.mem_map.2 ⟨s, hs, rfl⟩)).1
      exact Nat.le_of_succ_le hle

theorem advances_enumerate (rnd : Nat → Nat) (n c hi k r : Nat) (hc : 0 < c) :
    ∃ l, Advances rnd k (create r n c hi hc) l ∧ Enumerates n c hi l := by
  induction hd : hi + 1 - c generalizing c k r with
  | zero =>
    have hnone : create r n c hi hc = none := if_pos (.inr (by omega))
    rw [hnone]
    exact ⟨[], .finished, .nil (.inr (by omega))⟩
  | succ d ih =>
    have hcreated := create_created r n c hi hc
    generalize create r n c hi hc = s at hcreated
    cases hcreated with
    | none h => exact ⟨[], .finished, .nil h⟩
    | @round t hfirst hupper =>
      obtain ⟨l, hl, hl'⟩ := advances_round (k := k) (d := n - c - t)
        (P := Enumerates n (c + 1) hi) hfirst (Nat.le_refl t) (by omega)
        fun k r => ih (c := c + 1) (k := k) (r := r) (Nat.succ_pos c) (by omega)
      exact ⟨_, hl, hl'.round hfirst hupper⟩

/-- The window at this position comes later in the round, or it is the current one. -/
def Ahead (s : SubsegmentState) (p : Nat) : Prop :=
  if s.start ≤ s.index then s.index ≤ p ∨ p < s.start else s.index ≤ p ∧ p < s.start

/-- The number of windows in the rest of the round. -/
def windowsLeft (s : SubsegmentState) : Nat :=
  if s.start ≤ s.index then s.instances - s.index + s.start else s.start - s.index

theorem create_chunk (rnd n c hi : Nat) (hc : 0 < c) :
    ∀ s, create rnd n c hi hc = some s → s.chunk = c := by
  intro s hs
  rw [create] at hs
  split at hs
  · cases hs
  · cases hs
    rfl

/-- A state with the chunk 1 whose window and start are inside. -/
structure Single (s : SubsegmentState) : Prop where
  chunk : s.chunk = 1
  index : s.index < s.instances
  start : s.start < s.instances

theorem Single.advance {s : SubsegmentState} (h : Single s) (rnd : Nat) :
    ((∀ s', s.advance rnd = some s' → s'.chunk ≠ 1) ∧
      ∀ p, p < s.instances → s.Ahead p → p = s.index) ∨
    ∃ s', s.advance rnd = some s' ∧ Single s' ∧ s'.instances = s.instances ∧
      s'.windowsLeft < s.windowsLeft ∧
      ∀ p, p < s.instances → s.Ahead p → p ≠ s.index → s'.Ahead p := by
  obtain ⟨n, c, hi, i, t⟩ := s
  obtain ⟨hchunk, hindex, hstart⟩ := h
  simp only at hchunk hindex hstart
  subst hchunk
  by_cases hover : i + 1 = t ∨ i + 1 + 1 > n ∧ t = 0
  · refine .inl ⟨fun s' hs' => ?_, fun p hp hahead => ?_⟩
    · have hcreate := (if_pos hover).symm.trans hs'
      rw [create_chunk _ _ _ _ _ s' hcreate]
      nofun
    · simp only [Ahead] at hahead hp ⊢
      split at hahead
      · omega
      · omega
  · obtain ⟨hstart', hlast⟩ := not_or.1 hover
    refine .inr ⟨_, if_neg hover, ⟨rfl, ?_, hstart⟩, rfl, ?_, fun p hp hahead hne => ?_⟩
    · simp only
      split
      · omega
      · omega
    · simp only [windowsLeft]
      by_cases hwrap : i + 1 + 1 > n
      · rw [if_pos hwrap, if_neg (by omega), if_pos (by omega)]
        omega
      · rw [if_neg hwrap]
        by_cases hphase : t ≤ i
        · rw [if_pos hphase, if_pos (by omega)]
          omega
        · rw [if_neg hphase, if_neg (by omega)]
          omega
    · simp only [Ahead] at hahead hp hne ⊢
      by_cases hwrap : i + 1 + 1 > n
      · rw [if_pos hwrap, if_neg (by omega)]
        split at hahead
        · omega
        · omega
      · rw [if_neg hwrap]
        split at hahead
        · rw [if_pos (by omega)]
          omega
        · rw [if_neg (by omega)]
          omega

/-- A round with the chunk 1 goes on after the instance of the window is gone, or there was no other
window left. The instances after it move down by one. -/
theorem Single.advanceOnSuccess {s : SubsegmentState} (h : Single s) (rnd : Nat) :
    ((∀ s', s.advanceOnSuccess rnd (s.instances - 1) = some s' → s'.chunk ≠ 1) ∧
      ∀ p, p < s.instances → s.Ahead p → p = s.index) ∨
    ∃ s', s.advanceOnSuccess rnd (s.instances - 1) = some s' ∧ Single s' ∧
      s'.instances = s.instances - 1 ∧
      ∀ p, p < s.instances - 1 → s.Ahead (if p < s.index then p else p + 1) → s'.Ahead p := by
  obtain ⟨n, c, hi, i, t⟩ := s
  obtain ⟨hchunk, hindex, hstart⟩ := h
  simp only at hchunk hindex hstart
  subst hchunk
  simp only [SubsegmentState.advanceOnSuccess]
  by_cases hnone : 1 > n - 1
  · refine .inl ⟨fun s' hs' => ?_, fun p hp hahead => by omega⟩
    rw [if_pos hnone] at hs'
    cases hs'
  · rw [if_neg hnone]
    by_cases hover : i + 1 > n - 1 ∧ (i < t ∨ t = 0)
    · refine .inl ⟨fun s' hs' => ?_, fun p hp hahead => ?_⟩
      · rw [if_pos hover] at hs'
        rw [create_chunk _ _ _ _ _ s' hs']
        nofun
      · simp only [Ahead] at hahead
        split at hahead
        · omega
        · omega
    · rw [if_neg hover]
      refine .inr ⟨_, rfl, ⟨rfl, ?_, ?_⟩, rfl, fun p hp hahead => ?_⟩
      · simp only
        split
        · omega
        · omega
      · simp only
        split
        · omega
        · omega
      · simp only [Ahead] at hahead hp ⊢
        have hmoved : ∀ q, (if p < i then p else p + 1) = q → q = p ∧ p < i ∨ q = p + 1 ∧ i ≤ p := by
          intro q hq
          split at hq
          · omega
          · omega
        obtain hq | hq := hmoved _ rfl
        · obtain ⟨hq, hbefore⟩ := hq
          rw [hq] at hahead
          -- Only before the wrapover there are windows left in front of the current one.
          have hphase : t ≤ i ∧ p < t := by
            split at hahead
            · omega
            · omega
          by_cases hfirst : t + 1 > n - 1
          · rw [if_pos hfirst, if_pos (Nat.zero_le _)]
            split
            · omega
            · omega
          · rw [if_neg hfirst]
            split
            · rw [if_neg (by omega)]
              omega
            · rw [if_pos hphase.1]
              exact .inr hphase.2
        · obtain ⟨hq, hafter⟩ := hq
          rw [hq] at hahead
          have hlast : ¬ i + 1 > n - 1 := by omega
          rw [if_neg hlast]
          by_cases hfirst : t + 1 > n - 1
          · rw [if_pos hfirst, if_pos (Nat.zero_le _)]
            exact .inl hafter
          · rw [if_neg hfirst]
            by_cases hphase : t ≤ i
            · rw [if_pos hphase]
              exact .inl hafter
            · rw [if_neg hphase] at hahead ⊢
              omega

end SubsegmentState

/-- A round with the chunk 1, with the instances that were attempted in it. -/
structure SingleRound (α : Type) where
  alive : List α
  state : Option SubsegmentState
  attempted : List α := []

namespace SingleRound

/-- Attempts the current instance, which is gone after a success, with a random number. -/
def attempt (c : SingleRound α) (e : Bool × Nat) : Option (SingleRound α) :=
  match c.state with
  | none => none
  | some s =>
    if s.chunk = 1 then some
      { alive := if e.1 then c.alive.eraseIdx s.index else c.alive
        state := if e.1 then s.advanceOnSuccess e.2 (s.instances - 1) else s.advance e.2
        attempted := c.attempted ++ c.alive[s.index]?.toList }
    else none

def Over (c : SingleRound α) : Prop := ∀ s, c.state = some s → s.chunk ≠ 1

theorem attempt_none {c : SingleRound α} (h : c.attempt e = none) : c.Over := by
  intro s hs hchunk
  rw [attempt, hs] at h
  simp only [if_pos hchunk] at h
  cases h

/-- What is left of the round has each instance that was not attempted in it. -/
structure Inv (c : SingleRound α) : Prop where
  single : ∀ s, c.state = some s → s.chunk = 1 → s.Single ∧ s.instances = c.alive.length
  ahead : ∀ s, c.state = some s → s.chunk = 1 →
    ∀ p x, c.alive[p]? = some x → x ∉ c.attempted → s.Ahead p
  attemptedAll : c.Over → ∀ x ∈ c.alive, x ∈ c.attempted

/-- An attempt of a state with the chunk 1. -/
structure Attempted (c c' : SingleRound α) (s : SubsegmentState) (e : Bool × Nat) : Prop where
  state : c.state = some s
  chunk : s.chunk = 1
  next : c' =
    { alive := if e.1 then c.alive.eraseIdx s.index else c.alive
      state := if e.1 then s.advanceOnSuccess e.2 (s.instances - 1) else s.advance e.2
      attempted := c.attempted ++ c.alive[s.index]?.toList }

theorem attempt_attempted {c c' : SingleRound α} (h : c.attempt e = some c') :
    ∃ s, Attempted c c' s e := by
  rw [attempt] at h
  split at h
  · cases h
  · rename_i s hs
    split at h
    · rename_i hchunk
      exact ⟨s, hs, hchunk, (Option.some.inj h).symm⟩
    · cases h

namespace Attempted
variable {c c' : SingleRound α} {s : SubsegmentState}

/-- An instance that is still not attempted was not before, at a position with another index. -/
theorem not_attempted (h : Attempted c c' s e) (hinv : Inv c) (hp : c.alive[p]? = some x)
    (hx : x ∉ c'.attempted) : s.Ahead p ∧ p ≠ s.index := by
  rw [h.next, List.mem_append, not_or] at hx
  refine ⟨hinv.ahead s h.state h.chunk p x hp hx.1, ?_⟩
  rintro rfl
  apply hx.2
  rw [hp]
  exact List.mem_singleton.2 rfl

theorem inv_failed (h : Attempted c c' s (false, r)) (hinv : Inv c) : Inv c' := by
  obtain ⟨hsingle, hlength⟩ := hinv.single s h.state h.chunk
  have halive : c'.alive = c.alive := by rw [h.next]; rfl
  have hstate : c'.state = s.advance r := by rw [h.next]; rfl
  have hinside : ∀ {p x}, c'.alive[p]? = some x → c.alive[p]? = some x ∧ p < s.instances := by
    intro p x hp
    rw [halive] at hp
    exact ⟨hp, hlength ▸ (List.getElem?_eq_some_iff.1 hp).1⟩
  rcases hsingle.advance r with ⟨hover, hlast⟩ | ⟨s', hs', hsingle', hinstances, _, hahead⟩
  · constructor
    · exact fun s' hs' hchunk => absurd hchunk (hover s' (hstate.symm.trans hs'))
    · exact fun s' hs' hchunk => absurd hchunk (hover s' (hstate.symm.trans hs'))
    · intro _ x hx
      by_contra hnot
      obtain ⟨p, hp⟩ := List.mem_iff_getElem?.1 hx
      obtain ⟨hp, hlt⟩ := hinside hp
      obtain ⟨hp', hne⟩ := h.not_attempted hinv hp hnot
      exact hne (hlast p hlt hp')
  · constructor
    · intro t ht _
      cases (ht.symm.trans hstate).trans hs'
      exact ⟨hsingle', by rw [hinstances, hlength, halive]⟩
    · intro t ht _ p x hp hx
      cases (ht.symm.trans hstate).trans hs'
      obtain ⟨hp, hlt⟩ := hinside hp
      obtain ⟨hp', hne⟩ := h.not_attempted hinv hp hx
      exact hahead p hlt hp' hne
    · exact fun hover => absurd hsingle'.chunk (hover s' (hstate.trans hs'))

theorem inv_succeeded (h : Attempted c c' s (true, r)) (hinv : Inv c) : Inv c' := by
  obtain ⟨hsingle, hlength⟩ := hinv.single s h.state h.chunk
  have hindex : s.index < c.alive.length := hlength ▸ hsingle.index
  have halive : c'.alive = c.alive.eraseIdx s.index := by rw [h.next]; rfl
  have hstate : c'.state = s.advanceOnSuccess r (s.instances - 1) := by rw [h.next]; rfl
  have hcount : c'.alive.length = s.instances - 1 := by
    rw [halive, List.length_eraseIdx_of_lt hindex, hlength]
  have hinside : ∀ {p x}, c'.alive[p]? = some x → c.alive[if p < s.index then p else p + 1]? = some x ∧
      p < s.instances - 1 := by
    intro p x hp
    refine ⟨?_, hcount ▸ (List.getElem?_eq_some_iff.1 hp).1⟩
    rw [halive, List.getElem?_eraseIdx] at hp
    split at hp
    · rename_i hlt
      rw [if_pos hlt]
      exact hp
    · rename_i hlt
      rw [if_neg hlt]
      exact hp
  rcases hsingle.advanceOnSuccess r with ⟨hover, hlast⟩ | ⟨s', hs', hsingle', hinstances, hahead⟩
  · constructor
    · exact fun s' hs' hchunk => absurd hchunk (hover s' (hstate.symm.trans hs'))
    · exact fun s' hs' hchunk => absurd hchunk (hover s' (hstate.symm.trans hs'))
    · intro _ x hx
      by_contra hnot
      obtain ⟨p, hp⟩ := List.mem_iff_getElem?.1 hx
      obtain ⟨hp, _⟩ := hinside hp
      obtain ⟨hp', hne⟩ := h.not_attempted hinv hp hnot
      exact hne (hlast _ (hlength ▸ (List.getElem?_eq_some_iff.1 hp).1) hp')
  · constructor
    · intro t ht _
      cases (ht.symm.trans hstate).trans hs'
      exact ⟨hsingle', by rw [hinstances, hcount]⟩
    · intro t ht _ p x hp hx
      cases (ht.symm.trans hstate).trans hs'
      obtain ⟨hp, hlt⟩ := hinside hp
      exact hahead p hlt (h.not_attempted hinv hp hx).1
    · exact fun hover => absurd hsingle'.chunk (hover s' (hstate.trans hs'))

end Attempted

theorem Inv.attempt {c c' : SingleRound α} (h : Inv c) (hstep : c.attempt e = some c') : Inv c' := by
  obtain ⟨s, hatt⟩ := attempt_attempted hstep
  obtain ⟨ok, r⟩ := e
  cases ok with
  | false => exact hatt.inv_failed h
  | true => exact hatt.inv_succeeded h

/-- A bound on the number of attempts in the rest of a round. -/
def attemptsLeft (c : SingleRound α) : Nat :=
  match c.state with
  | none => 0
  | some s => if s.chunk = 1 then s.instances * s.instances + s.windowsLeft + 1 else 0

theorem windowsLeft_le {s : SubsegmentState} (h : s.Single) : s.windowsLeft ≤ 2 * s.instances := by
  have hindex := h.index
  have hstart := h.start
  rw [SubsegmentState.windowsLeft]
  split
  · omega
  · omega

theorem attempt_attemptsLeft {c c' : SingleRound α} (h : Inv c) (hstep : c.attempt e = some c') :
    c'.attemptsLeft < c.attemptsLeft := by
  obtain ⟨s, hatt⟩ := attempt_attempted hstep
  obtain ⟨hsingle, _⟩ := h.single s hatt.state hatt.chunk
  have hleft : c.attemptsLeft = s.instances * s.instances + s.windowsLeft + 1 := by
    rw [attemptsLeft, hatt.state]
    exact if_pos hatt.chunk
  have hover : (∀ s', c'.state = some s' → s'.chunk ≠ 1) → c'.attemptsLeft < c.attemptsLeft := by
    intro hover
    have hzero : c'.attemptsLeft = 0 := by
      rw [attemptsLeft]
      split
      · rfl
      · rename_i s' hs'
        exact if_neg (hover s' hs')
    omega
  have hgoes : ∀ {s'}, c'.state = some s' → s'.chunk = 1 →
      c'.attemptsLeft = s'.instances * s'.instances + s'.windowsLeft + 1 := by
    intro s' hs' hchunk
    rw [attemptsLeft, hs']
    exact if_pos hchunk
  obtain ⟨ok, r⟩ := e
  have hnext := congrArg SingleRound.state hatt.next
  cases ok with
  | false =>
    rcases hsingle.advance r with ⟨hend, _⟩ | ⟨s', hs', hsingle', hinstances, hwindows, _⟩
    · exact hover fun s' hs' => hend s' (hnext.symm.trans hs')
    · rw [hgoes (hnext.trans hs') hsingle'.chunk, hleft, hinstances]
      omega
  | true =>
    rcases hsingle.advanceOnSuccess r with ⟨hend, _⟩ | ⟨s', hs', hsingle', hinstances, _⟩
    · exact hover fun s' hs' => hend s' (hnext.symm.trans hs')
    · have hwindows := windowsLeft_le hsingle'
      rw [hgoes (hnext.trans hs') hsingle'.chunk, hleft]
      obtain ⟨m, hm⟩ : ∃ m, s.instances = m + 1 :=
        ⟨s.instances - 1, by have := hsingle.index; omega⟩
      have hm' : s'.instances = m := by omega
      rw [hm'] at hwindows ⊢
      rw [hm]
      have hsquare : (m + 1) * (m + 1) = m * m + 2 * m + 1 := by ring
      omega

end SingleRound

theorem SubsegmentState.create_single (h : create r n 1 hi Nat.one_pos = some s) : s.Single ∧
    s.instances = n ∧ s.start = s.index := by
  have hcreated := create_created r n 1 hi Nat.one_pos
  rw [h] at hcreated
  cases hcreated with
  | round hfirst =>
    exact ⟨⟨rfl, by simp only; omega, by simp only; omega⟩, rfl, rfl⟩

theorem SingleRound.Inv.start (h : SubsegmentState.create r n 1 hi Nat.one_pos = some s) :
    SingleRound.Inv { alive := List.range n, state := some s } := by
  obtain ⟨hsingle, hinstances, hstart⟩ := SubsegmentState.create_single h
  constructor
  · intro t ht _
    cases ht
    exact ⟨hsingle, by rw [hinstances, List.length_range]⟩
  · intro t ht _ p x _ _
    cases ht
    rw [SubsegmentState.Ahead, if_pos (Nat.le_of_eq hstart), hstart]
    omega
  · exact fun hover => absurd hsingle.chunk (hover s rfl)

/-- The windows of a subsegment enumeration are always inside and have allowed chunks. If no window
succeeds, each one with an allowed chunk is visited once, in the order of the chunks. In a round with
the chunk 1, which ends whatever succeeds, no surviving instance is left out. -/
theorem subsegments_enumerated (r n lo hi : Nat) (hpos : 0 < lo) (s : SubsegmentState)
    (h : SubsegmentState.create r n lo hi hpos = some s) :
    (∀ t, Reach SubsegmentState.apply s t →
      t.index + t.chunk ≤ t.instances ∧ lo ≤ t.chunk ∧ t.chunk ≤ hi) ∧
    (∀ rnd : Nat → Nat, ∃ l, Visits (fun t r => t.advance r) rnd 0 (some s) l ∧
      (∀ t ∈ l, t.instances = n) ∧
      (l.map fun t => (t.chunk, t.index)).Nodup ∧
      (∀ j i, (j, i) ∈ l.map (fun t => (t.chunk, t.index)) ↔ lo ≤ j ∧ j ≤ min hi n ∧ i ≤ n - j) ∧
      (l.map (·.chunk)).Pairwise (· ≤ ·)) ∧
    (lo = 1 → ∀ events : Nat → Bool × Nat, ∃ k c,
      runFrom SingleRound.attempt { alive := List.range n, state := some s }
        ((List.range k).map events) = some c ∧
      (∀ t, c.state = some t → t.chunk ≠ 1) ∧ ∀ x ∈ c.alive, x ∈ c.attempted) := by
  refine ⟨fun t hreach => ?_, fun rnd => ?_, fun hlo events => ?_⟩
  · have hstart := (h ▸ SubsegmentState.create_created r n lo hi hpos).valid (Nat.le_refl lo) s rfl
    have hvalid : t.Valid lo hi :=
      hreach.invariant hstart fun u e v hu _ hstep => hu.apply hstep
    exact ⟨hvalid.window, hvalid.lower, hvalid.upper⟩
  · obtain ⟨l, hl, hall⟩ := SubsegmentState.advances_enumerate rnd n lo hi 0 r hpos
    rw [h] at hl
    refine ⟨l, hl, hall.instances, hall.nodup, fun j i => ?_, hall.sorted⟩
    rw [hall.mem]
    omega
  · subst hlo
    have hinv : ∀ c, Reach SingleRound.attempt { alive := List.range n, state := some s } c →
        SingleRound.Inv c := fun c hreach =>
      hreach.invariant (.start h) fun u e v hu _ hstep => hu.attempt hstep
    have hfewer : ∀ u e v, Reach SingleRound.attempt { alive := List.range n, state := some s } u →
        SingleRound.attempt u e = some v → v.attemptsLeft < u.attemptsLeft := fun u e v hreach hstep =>
      SingleRound.attempt_attemptsLeft (hinv u hreach) hstep
    obtain ⟨k, c, hrun, hend⟩ := runFrom_ends hfewer events
    have hover := SingleRound.attempt_none hend
    exact ⟨k, c, hrun, hover, (hinv c (runFrom_reach hrun)).attemptedAll hover⟩

/-- All windows of three instances with at most two of them, from the second one on. -/
theorem subsegments_enumerated_three : ∃ l, Visits (fun t r => SubsegmentState.advance r t) (fun _ => 1)
    0 (SubsegmentState.create 1 3 1 2 Nat.one_pos) l ∧ (2, 1) ∈ l.map (fun t => (t.chunk, t.index)) := by
  obtain ⟨_, hvisits, _⟩ := subsegments_enumerated 1 3 1 2 Nat.one_pos ⟨3, 1, 2, 1, 1⟩ rfl
  obtain ⟨l, hl, _, _, hmem, _⟩ := hvisits fun _ => 1
  exact ⟨l, hl, (hmem 2 1).2 (by decide)⟩

end Cvise
