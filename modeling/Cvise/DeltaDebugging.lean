import Cvise.ElementaryState
import Cvise.Transition
import Mathlib.Data.List.Nodup

namespace Cvise
set_option autoImplicit true

namespace BinaryState

/-- Goes on at the position `i` of `n` instances, or from the first one with half the chunk if there
is none at `i`. -/
def resume (s : BinaryState) (n i : Nat) : Option BinaryState :=
  if n = 0 then none
  else if i < n then some { s with instances := n, index := i }
  else if h : 0 < s.chunk / 2 then some ⟨n, s.chunk / 2, 0, h⟩
  else none

theorem advance_eq_resume {s : BinaryState} (h : 0 < s.instances) :
    s.advance = s.resume s.instances (s.index + s.chunk) := by
  rw [advance, resume, if_neg (Nat.ne_of_gt h)]
  by_cases hend : s.index + s.chunk < s.instances
  · rw [if_neg (Nat.not_le.2 hend), if_pos hend]
  · rw [if_pos (Nat.not_lt.1 hend), if_neg hend]

theorem advanceOnSuccess_eq_resume (s : BinaryState) (n : Nat) :
    s.advanceOnSuccess n = s.resume n s.index := by
  rw [advanceOnSuccess, resume]
  by_cases hn : n = 0
  · rw [if_pos hn, if_pos hn]
  · rw [if_neg hn, if_neg hn]
    by_cases hindex : s.index < n
    · rw [if_pos hindex]
      exact if_neg (Nat.not_le.2 hindex)
    · rw [if_neg hindex]
      have hend : n ≤ s.index + s.chunk := by omega
      exact (if_pos (Nat.not_lt.1 hindex)).trans (if_pos hend)

/-- Where a state goes on: with the same chunk, with half of it, or nowhere. -/
inductive Resumed (s : BinaryState) (n i : Nat) : Option BinaryState → Prop
  | same (hi : i < n) : Resumed s n i (some { s with instances := n, index := i })
  | halved (hi : n ≤ i) (hn : 0 < n) (h : 0 < s.chunk / 2) : Resumed s n i (some ⟨n, s.chunk / 2, 0, h⟩)
  | finished (hi : n ≤ i) (h : n = 0 ∨ s.chunk = 1) : Resumed s n i none

theorem resume_cases (s : BinaryState) (n i : Nat) : Resumed s n i (s.resume n i) := by
  have hpos := s.chunk_pos
  rw [resume]
  split
  · rename_i hn
    exact .finished (by omega) (.inl hn)
  · rename_i hn
    split
    · rename_i hi
      exact .same hi
    · rename_i hi
      split
      · rename_i hhalf
        exact .halved (Nat.not_lt.1 hi) (Nat.pos_of_ne_zero hn) hhalf
      · exact .finished (Nat.not_lt.1 hi) (.inr (by omega))

theorem half_lt (s : BinaryState) : s.chunk / 2 < s.chunk :=
  Nat.div_lt_self s.chunk_pos (Nat.le_refl 2)

/-- There are fewer steps left after one that leaves fewer instances from the position on. -/
theorem Resumed.stepsLeft {s : BinaryState} (h : Resumed s n i r) (hn : n ≤ s.instances)
    (hi : n - i < s.instances - s.index) : ∀ s', r = some s' → s'.stepsLeft < s.stepsLeft := by
  intro s' hs'
  cases h with
  | same =>
    cases hs'
    have hmul := Nat.mul_le_mul_left s.chunk (Nat.add_le_add_right hn 1)
    simp only [BinaryState.stepsLeft]
    omega
  | halved =>
    cases hs'
    have hmul := Nat.mul_le_mul (Nat.succ_le_of_lt s.half_lt) (Nat.add_le_add_right hn 1)
    rw [Nat.succ_mul] at hmul
    simp only [BinaryState.stepsLeft]
    omega
  | finished => cases hs'

end BinaryState

/-- An attempt with the instances of a window, out of those that were alive. -/
structure Attempt (α : Type) where
  chunk : Nat
  alive : List α
  window : List α
  succeeded : Bool

/-- A binary search that is run sequentially, with the attempts that were made. -/
structure Search (α : Type) where
  alive : List α
  state : Option BinaryState
  attempts : List (Attempt α) := []

namespace Search

def start (xs : List α) : Search α where
  alive := xs
  state := BinaryState.create xs.length

/-- The instances in the window of the state. -/
def window (s : BinaryState) (alive : List α) : List α := (alive.take s.end).drop s.index

/-- Attempts the current window. After a success its instances are gone. -/
def attempt (c : Search α) (succeeded : Bool) : Option (Search α) :=
  c.state.map fun s =>
    { alive := if succeeded then c.alive.take s.index ++ c.alive.drop s.end else c.alive
      state := if succeeded then s.advanceOnSuccess (s.instances - s.realChunk) else s.advance
      attempts := c.attempts ++ [⟨s.chunk, c.alive, window s c.alive, succeeded⟩] }

/-- The window of a state lies within the instances that are alive. -/
structure Valid (s : BinaryState) (xs : List α) : Prop where
  index : s.index < s.instances
  instances : s.instances = xs.length

theorem Valid.window (h : Valid s xs) : s.index < s.end ∧ s.end ≤ s.instances := by
  have hindex := h.index
  have hpos := s.chunk_pos
  rw [BinaryState.end]
  omega

/-- What an attempt leaves, where `i` is the position of the first instance after the window. -/
structure Attempted (c c' : Search α) (s : BinaryState) (ok : Bool) (i : Nat) : Prop where
  state : s.Resumed c'.alive.length i c'.state
  attempts : c'.attempts = c.attempts ++ [⟨s.chunk, c.alive, window s c.alive, ok⟩]
  rest : c.alive.drop s.index = window s c.alive ++ c'.alive.drop i
  kept : ∀ x ∈ c'.alive.take i, x ∈ c.alive.take s.index ∨ x ∈ window s c.alive ∧ ok = false
  sublist : c'.alive.Sublist c.alive
  fewer : c'.alive.length - i < s.instances - s.index

theorem window_eq_take (h : Valid s xs) : window s xs = (xs.drop s.index).take s.chunk := by
  have hlength := h.instances
  rw [window, List.drop_take, List.take_eq_take_iff, List.length_drop, BinaryState.end]
  omega

theorem drop_end (h : Valid s xs) : xs.drop s.index = window s xs ++ xs.drop s.end := by
  obtain ⟨hlt, hend⟩ := h.window
  have hlength := h.instances
  have hsplit := congrArg (List.drop s.index) (List.take_append_drop s.end xs)
  rw [List.drop_append_of_le_length (by rw [List.length_take]; omega)] at hsplit
  exact hsplit.symm

theorem failed_attempted {c c' : Search α} (hs : c.state = some s) (hvalid : Valid s c.alive)
    (h : c.attempt false = some c') : Attempted c c' s false (s.index + s.chunk) := by
  have hindex := hvalid.index
  have hpos := s.chunk_pos
  have hlength := hvalid.instances
  rw [attempt, hs, Option.map_some, Option.some.injEq] at h
  subst h
  apply Attempted.mk
  · simp only [Bool.false_eq_true, if_false]
    rw [← hlength, BinaryState.advance_eq_resume (by omega)]
    exact s.resume_cases _ _
  · rfl
  · rw [window_eq_take hvalid, ← List.drop_drop]
    exact (List.take_append_drop s.chunk _).symm
  · intro x hx
    rw [window_eq_take hvalid]
    simp only [Bool.false_eq_true, if_false, List.take_add] at hx
    rcases List.mem_append.1 hx with hx | hx
    · exact .inl hx
    · exact .inr ⟨hx, rfl⟩
  · exact List.Sublist.refl _
  · simp only [Bool.false_eq_true, if_false]
    omega

theorem succeeded_attempted {c c' : Search α} (hs : c.state = some s) (hvalid : Valid s c.alive)
    (h : c.attempt true = some c') : Attempted c c' s true s.index := by
  obtain ⟨hlt, hend⟩ := hvalid.window
  have hlength := hvalid.instances
  have hbefore : (c.alive.take s.index).length = s.index := by
    rw [List.length_take]
    omega
  have hcount : (c.alive.take s.index ++ c.alive.drop s.end).length = s.instances - s.realChunk := by
    rw [List.length_append, hbefore, List.length_drop, BinaryState.realChunk]
    omega
  rw [attempt, hs, Option.map_some, Option.some.injEq] at h
  subst h
  apply Attempted.mk
  · simp only [if_true]
    rw [hcount, BinaryState.advanceOnSuccess_eq_resume]
    exact s.resume_cases _ _
  · rfl
  · simp only [if_true]
    rw [List.drop_left' hbefore]
    exact drop_end hvalid
  · intro x hx
    simp only [if_true, List.take_left' hbefore] at hx
    exact .inl hx
  · have hsub := (List.Sublist.refl (c.alive.take s.index)).append
      (List.drop_sublist_drop_left c.alive (Nat.le_of_lt hlt))
    rwa [List.take_append_drop] at hsub
  · simp only [if_true]
    rw [hcount, BinaryState.realChunk]
    omega

theorem attempt_attempted {c c' : Search α} (hs : c.state = some s) (hvalid : Valid s c.alive)
    (h : c.attempt ok = some c') : ∃ i, Attempted c c' s ok i := by
  cases ok with
  | false => exact ⟨_, failed_attempted hs hvalid h⟩
  | true => exact ⟨_, succeeded_attempted hs hvalid h⟩

/-- The instances that were attempted with this chunk, window by window. -/
def covered (n : Nat) (attempts : List (Attempt α)) : List α :=
  (attempts.filter (·.chunk = n)).flatMap (·.window)

/-- What holds of a search at any time. -/
structure Inv (xs : List α) (c : Search α) : Prop where
  valid : ∀ s, c.state = some s → Valid s c.alive
  above : ∀ s, c.state = some s → ∀ a ∈ c.attempts, s.chunk ≤ a.chunk
  current : ∀ s, c.state = some s → covered s.chunk c.attempts ++ c.alive.drop s.index =
    ((c.attempts.find? (·.chunk = s.chunk)).map (·.alive)).getD c.alive
  complete : ∀ n first, (∀ s, c.state = some s → s.chunk < n) →
    c.attempts.find? (·.chunk = n) = some first → covered n c.attempts = first.alive
  tried : ∀ s, c.state = some s → ∀ x ∈ c.alive.take s.index,
    ∃ a ∈ c.attempts, a.chunk = s.chunk ∧ x ∈ a.window ∧ a.succeeded = false
  sizes : ∀ a ∈ c.attempts, a.window.length ≤ a.chunk
  finished : c.state = none → c.alive = [] ∨ (∃ a, c.attempts.getLast? = some a ∧ a.chunk = 1) ∧
    ∀ x ∈ c.alive, ∃ a ∈ c.attempts, a.chunk = 1 ∧ a.window = [x] ∧ a.succeeded = false
  sublist : c.alive.Sublist xs ∧ ∀ a ∈ c.attempts, a.alive.Sublist xs

theorem covered_append (n : Nat) (attempts : List (Attempt α)) (a : Attempt α) :
    covered n (attempts ++ [a]) = covered n attempts ++ if a.chunk = n then a.window else [] := by
  rw [covered, List.filter_append, List.flatMap_append, covered]
  by_cases ha : a.chunk = n
  · simp [ha]
  · simp [ha]

namespace Attempted
variable {xs : List α} {c c' : Search α} {s : BinaryState}

/-- The granularity of the attempt began with what it has covered and what is left of it. -/
theorem granularity (h : Attempted c c' s ok i) (hinv : Inv xs c) (hs : c.state = some s) :
    ∃ first, c'.attempts.find? (·.chunk = s.chunk) = some first ∧
      covered s.chunk c'.attempts ++ c'.alive.drop i = first.alive := by
  have hcurrent := hinv.current s hs
  rw [h.rest, ← List.append_assoc] at hcurrent
  rw [h.attempts, covered_append, if_pos rfl, List.find?_append]
  cases hfind : c.attempts.find? (·.chunk = s.chunk) with
  | some first =>
    rw [hfind] at hcurrent
    exact ⟨first, rfl, hcurrent⟩
  | none =>
    rw [hfind] at hcurrent
    exact ⟨⟨s.chunk, c.alive, window s c.alive, ok⟩, by simp, hcurrent⟩

/-- The attempts with other chunks stay. -/
theorem others (h : Attempted c c' s ok i) (hn : n ≠ s.chunk) :
    covered n c'.attempts = covered n c.attempts ∧
      c'.attempts.find? (·.chunk = n) = c.attempts.find? (·.chunk = n) := by
  rw [h.attempts, covered_append, if_neg (Ne.symm hn), List.append_nil, List.find?_append]
  simp [Ne.symm hn]

/-- All granularities with larger chunks are complete, and so is the current one at its end. -/
theorem complete (h : Attempted c c' s ok i) (hinv : Inv xs c) (hs : c.state = some s)
    (hn : s.chunk < n ∨ n ≤ s.chunk ∧ c'.alive.length ≤ i)
    (hfirst : c'.attempts.find? (·.chunk = n) = some first) :
    covered n c'.attempts = first.alive := by
  by_cases heq : n = s.chunk
  · subst heq
    obtain ⟨first', hfirst', hcovered⟩ := h.granularity hinv hs
    cases hfirst.symm.trans hfirst'
    rcases hn with hlt | ⟨_, hend⟩
    · exact absurd hlt (Nat.lt_irrefl _)
    · rwa [List.drop_eq_nil_of_le hend, List.append_nil] at hcovered
  · obtain ⟨hcovered, hfind⟩ := h.others heq
    rw [hcovered]
    rw [hfind] at hfirst
    have hmem := List.mem_of_find?_eq_some hfirst
    have hchunk : first.chunk = n := by simpa using List.find?_some hfirst
    have habove := hinv.above s hs first hmem
    apply hinv.complete n first _ hfirst
    intro s' hs'
    cases hs.symm.trans hs'
    omega

theorem mem_attempts (h : Attempted c c' s ok i) :
    (⟨s.chunk, c.alive, window s c.alive, ok⟩ : Attempt α) ∈ c'.attempts := by
  rw [h.attempts]
  exact List.mem_append_right _ List.mem_cons_self

theorem forall_attempts {P : Attempt α → Prop} (h : Attempted c c' s ok i)
    (hold : ∀ a ∈ c.attempts, P a) (hnew : P ⟨s.chunk, c.alive, window s c.alive, ok⟩) :
    ∀ a ∈ c'.attempts, P a := by
  intro a ha
  rw [h.attempts] at ha
  rcases List.mem_append.1 ha with ha | ha
  · exact hold a ha
  · exact List.mem_singleton.1 ha ▸ hnew

theorem tried (h : Attempted c c' s ok i) (hinv : Inv xs c) (hs : c.state = some s) :
    ∀ x ∈ c'.alive.take i,
      ∃ a ∈ c'.attempts, a.chunk = s.chunk ∧ x ∈ a.window ∧ a.succeeded = false := by
  intro x hx
  rcases h.kept x hx with hx | ⟨hx, hok⟩
  · obtain ⟨a, ha, htried⟩ := hinv.tried s hs x hx
    refine ⟨a, ?_, htried⟩
    rw [h.attempts]
    exact List.mem_append_left _ ha
  · exact ⟨_, h.mem_attempts, rfl, hx, hok⟩

theorem sizes (h : Attempted c c' s ok i) (hinv : Inv xs c) (hs : c.state = some s) :
    ∀ a ∈ c'.attempts, a.window.length ≤ a.chunk := by
  apply h.forall_attempts hinv.sizes
  rw [window_eq_take (hinv.valid s hs)]
  exact List.length_take_le _ _

theorem stepsLeft (h : Attempted c c' s ok i) (hinv : Inv xs c) (hs : c.state = some s) :
    c'.state.elim 0 (·.stepsLeft) < c.state.elim 0 (·.stepsLeft) := by
  have hle : c'.alive.length ≤ s.instances :=
    (hinv.valid s hs).instances ▸ h.sublist.length_le
  have hsteps := h.state.stepsLeft hle h.fewer
  rw [hs, Option.elim_some]
  cases hs' : c'.state with
  | none => exact s.stepsLeft_pos
  | some s' => exact hsteps s' hs'

end Attempted

namespace Inv
variable {xs : List α} {c c' : Search α}

theorem start (xs : List α) : Inv xs (Search.start xs) := by
  have hstate : ∀ s, (Search.start xs).state = some s →
      s.instances = xs.length ∧ s.chunk = xs.length ∧ s.index = 0 ∧ 0 < xs.length := by
    intro s hs
    simp only [Search.start, BinaryState.create] at hs
    split at hs
    · rename_i hpos
      cases hs
      exact ⟨rfl, rfl, rfl, hpos⟩
    · cases hs
  constructor
  · intro s hs
    obtain ⟨hinstances, _, hindex, hpos⟩ := hstate s hs
    exact ⟨by omega, hinstances⟩
  · exact fun s _ a ha => absurd ha List.not_mem_nil
  · intro s hs
    rw [(hstate s hs).2.2.1]
    rfl
  · exact fun n first _ hfirst => by cases hfirst
  · intro s hs x hx
    rw [(hstate s hs).2.2.1] at hx
    cases hx
  · exact fun a ha => absurd ha List.not_mem_nil
  · intro hnone
    simp only [Search.start, BinaryState.create] at hnone
    split at hnone
    · cases hnone
    · rename_i hempty
      exact .inl (List.length_eq_zero_iff.1 (Nat.eq_zero_of_not_pos hempty))
  · exact ⟨List.Sublist.refl _, fun a ha => absurd ha List.not_mem_nil⟩

theorem sublists (h : Inv xs c) (hatt : Attempted c c' s ok i) :
    c'.alive.Sublist xs ∧ ∀ a ∈ c'.attempts, a.alive.Sublist xs := by
  obtain ⟨halive, hold⟩ := h.sublist
  exact ⟨hatt.sublist.trans halive, hatt.forall_attempts hold halive⟩

theorem attempted_same (h : Inv xs c) (hs : c.state = some s) (hatt : Attempted c c' s ok i)
    (hi : i < c'.alive.length)
    (hs' : c'.state = some { s with instances := c'.alive.length, index := i }) : Inv xs c' where
  valid s' hsome := by
    cases hs'.symm.trans hsome
    exact ⟨hi, rfl⟩
  above s' hsome := by
    cases hs'.symm.trans hsome
    exact hatt.forall_attempts (h.above s hs) (Nat.le_refl _)
  current s' hsome := by
    cases hs'.symm.trans hsome
    obtain ⟨first, hfirst, hcovered⟩ := hatt.granularity h hs
    simp only [hfirst]
    exact hcovered
  complete n first hn hfirst := by
    have hlt := hn _ hs'
    exact hatt.complete h hs (.inl hlt) hfirst
  tried s' hsome := by
    cases hs'.symm.trans hsome
    exact hatt.tried h hs
  sizes := hatt.sizes h hs
  finished hnone := nomatch hs'.symm.trans hnone
  sublist := h.sublists hatt

theorem attempted_halved (h : Inv xs c) (hs : c.state = some s) (hatt : Attempted c c' s ok i)
    (hi : c'.alive.length ≤ i) (hpos : 0 < c'.alive.length) (hhalf : 0 < s.chunk / 2)
    (hs' : c'.state = some ⟨c'.alive.length, s.chunk / 2, 0, hhalf⟩) : Inv xs c' where
  valid s' hsome := by
    cases hs'.symm.trans hsome
    exact ⟨hpos, rfl⟩
  above s' hsome := by
    cases hs'.symm.trans hsome
    have hlt := s.half_lt
    refine hatt.forall_attempts (P := fun a => s.chunk / 2 ≤ a.chunk) ?_ ?_
    · intro a ha
      exact Nat.le_trans (Nat.le_of_lt hlt) (h.above s hs a ha)
    · exact Nat.le_of_lt hlt
  current s' hsome := by
    cases hs'.symm.trans hsome
    have hlt := s.half_lt
    have hnone : ∀ a ∈ c'.attempts, ¬ a.chunk = s.chunk / 2 := by
      refine hatt.forall_attempts (P := fun a => ¬ a.chunk = s.chunk / 2) ?_ ?_
      · intro a ha heq
        have hle := h.above s hs a ha
        omega
      · exact Nat.ne_of_gt hlt
    rw [covered, List.filter_eq_nil_iff.2 (by simpa using hnone),
      List.find?_eq_none.2 (by simpa using hnone)]
    rfl
  complete n first _ hfirst := by
    rcases Nat.lt_or_ge s.chunk n with hlt | hle
    · exact hatt.complete h hs (.inl hlt) hfirst
    · exact hatt.complete h hs (.inr ⟨hle, hi⟩) hfirst
  tried s' hsome := by
    cases hs'.symm.trans hsome
    exact fun x hx => absurd hx List.not_mem_nil
  sizes := hatt.sizes h hs
  finished hnone := nomatch hs'.symm.trans hnone
  sublist := h.sublists hatt

theorem attempted_finished (h : Inv xs c) (hs : c.state = some s) (hatt : Attempted c c' s ok i)
    (hi : c'.alive.length ≤ i) (hend : c'.alive.length = 0 ∨ s.chunk = 1) (hs' : c'.state = none) :
    Inv xs c' where
  valid s' hsome := nomatch hs'.symm.trans hsome
  above s' hsome := nomatch hs'.symm.trans hsome
  current s' hsome := nomatch hs'.symm.trans hsome
  complete n first _ hfirst := by
    rcases Nat.lt_or_ge s.chunk n with hlt | hle
    · exact hatt.complete h hs (.inl hlt) hfirst
    · exact hatt.complete h hs (.inr ⟨hle, hi⟩) hfirst
  tried s' hsome := nomatch hs'.symm.trans hsome
  sizes := hatt.sizes h hs
  finished _ := by
    rcases hend with hnil | hone
    · exact .inl (List.length_eq_zero_iff.1 hnil)
    · apply Or.inr
      constructor
      · refine ⟨⟨s.chunk, c.alive, window s c.alive, ok⟩, ?_, hone⟩
        rw [hatt.attempts, List.getLast?_concat]
      · intro x hx
        rw [← List.take_of_length_le hi] at hx
        obtain ⟨a, ha, hchunk, hmem, hfailed⟩ := hatt.tried h hs x hx
        have hsize := hatt.sizes h hs a ha
        refine ⟨a, ha, hchunk.trans hone, ?_, hfailed⟩
        -- A window with chunk 1 has no other instance.
        rw [hchunk, hone] at hsize
        obtain ⟨y, hy⟩ := List.length_eq_one_iff.1
          (Nat.le_antisymm hsize (List.length_pos_of_mem hmem))
        rw [hy] at hmem ⊢
        rw [List.mem_singleton.1 hmem]
  sublist := h.sublists hatt

theorem attempt (h : Inv xs c) (hstep : c.attempt ok = some c') : Inv xs c' := by
  obtain ⟨s, hs, _⟩ := Option.map_eq_some_iff.1 hstep
  obtain ⟨i, hatt⟩ := attempt_attempted hs (h.valid s hs) hstep
  have hresumed := hatt.state
  generalize hs' : c'.state = r at hresumed
  cases hresumed with
  | same hi => exact h.attempted_same hs hatt hi hs'
  | halved hi hpos hhalf => exact h.attempted_halved hs hatt hi hpos hhalf hs'
  | finished hi hend => exact h.attempted_finished hs hatt hi hend hs'

theorem of_reach (h : Reach Search.attempt (Search.start xs) c) : Inv xs c :=
  h.invariant (.start xs) fun _ _ _ hinv _ hstep => hinv.attempt hstep

end Inv

theorem countP_window [DecidableEq α] {attempts : List (Attempt α)}
    (hnodup : (attempts.flatMap (·.window)).Nodup) (hx : x ∈ attempts.flatMap (·.window)) :
    attempts.countP (fun a => x ∈ a.window) = 1 := by
  induction attempts with
  | nil => cases hx
  | cons a attempts ih =>
    rw [List.flatMap_cons] at hnodup hx
    obtain ⟨_, hrest, hdisjoint⟩ := List.nodup_append.1 hnodup
    rw [List.countP_cons]
    by_cases ha : x ∈ a.window
    · have hnone : attempts.countP (fun a => x ∈ a.window) = 0 := by
        apply List.countP_eq_zero.2
        intro b hb hmem
        exact hdisjoint x ha x (List.mem_flatMap.2 ⟨b, hb, of_decide_eq_true hmem⟩) rfl
      rw [hnone, if_pos (decide_eq_true ha)]
    · rw [if_neg (by simpa using ha), ih hrest ((List.mem_append.1 hx).resolve_left ha)]

theorem attempt_none {c : Search α} : c.attempt ok = none ↔ c.state = none := by
  rw [attempt, Option.map_eq_none_iff]

theorem terminates (xs : List α) (outcomes : Nat → Bool) : ∃ k c,
    runFrom attempt (start xs) ((List.range k).map outcomes) = some c ∧ c.state = none := by
  have hfewer : ∀ (c : Search α) ok c', Reach attempt (start xs) c → c.attempt ok = some c' →
      c'.state.elim 0 (·.stepsLeft) < c.state.elim 0 (·.stepsLeft) := by
    intro c ok c' hreach hstep
    obtain ⟨s, hs, _⟩ := Option.map_eq_some_iff.1 hstep
    have hinv := Inv.of_reach hreach
    obtain ⟨i, hatt⟩ := attempt_attempted hs (hinv.valid s hs) hstep
    exact hatt.stepsLeft hinv hs
  obtain ⟨k, c, hrun, hend⟩ := runFrom_ends hfewer outcomes
  exact ⟨k, c, hrun, attempt_none.1 hend⟩

end Search

/-- A binary search over `n` instances attempts windows that are not empty and in range. A granularity
that is over has attempted each instance that was alive at its beginning in one window. The search
ends, and then each instance that remains was attempted alone and failed in the last granularity. -/
theorem binarySearch_complete (n : Nat) :
    (∀ outcomes : Nat → Bool, ∃ k c,
      runFrom Search.attempt (.start (List.range n)) ((List.range k).map outcomes) = some c ∧
        c.state = none) ∧
    ∀ c, Reach Search.attempt (.start (List.range n)) c →
      (∀ s, c.state = some s →
        s.index < s.end ∧ s.end ≤ s.instances ∧ s.instances = c.alive.length) ∧
      (∀ chunk first, c.attempts.find? (·.chunk = chunk) = some first →
        (∀ s, c.state = some s → s.chunk ≠ chunk) →
          Search.covered chunk c.attempts = first.alive ∧ ∀ x ∈ first.alive,
            ((c.attempts.filter (·.chunk = chunk)).countP fun a => x ∈ a.window) = 1) ∧
      (c.state = none → c.alive = [] ∨ (∃ a, c.attempts.getLast? = some a ∧ a.chunk = 1) ∧
        ∀ x ∈ c.alive, ∃ a ∈ c.attempts, a.chunk = 1 ∧ a.window = [x] ∧ a.succeeded = false) := by
  refine ⟨Search.terminates (List.range n), fun c hreach => ?_⟩
  have hinv := Search.Inv.of_reach hreach
  refine ⟨fun s hs => ?_, fun chunk first hfirst hover => ?_, hinv.finished⟩
  · have hvalid := hinv.valid s hs
    exact ⟨hvalid.window.1, hvalid.window.2, hvalid.instances⟩
  · have hmem := List.mem_of_find?_eq_some hfirst
    have hchunk : first.chunk = chunk := by simpa using List.find?_some hfirst
    have hcovered := hinv.complete chunk first
      (fun s hs => Nat.lt_of_le_of_ne (hchunk ▸ hinv.above s hs first hmem) (hover s hs)) hfirst
    refine ⟨hcovered, fun x hx => ?_⟩
    have hnodup := List.nodup_range.sublist (hinv.sublist.2 first hmem)
    rw [← hcovered] at hnodup hx
    exact Search.countP_window hnodup hx

/-- The first half of four instances succeeds, the second fails, and so does one of it alone. -/
def fourInstances : Search Nat :=
  (runFrom Search.attempt (.start (List.range 4)) [false, true, false, false, true]).getD (.start [])

theorem fourInstances_run : runFrom Search.attempt (.start (List.range 4))
    [false, true, false, false, true] = some fourInstances := rfl

theorem binarySearch_complete_four : fourInstances.state = none ∧ fourInstances.alive = [2] ∧
    ∃ a ∈ fourInstances.attempts, a.chunk = 1 ∧ a.window = [2] ∧ a.succeeded = false := by
  obtain ⟨_, _, hfinished⟩ := (binarySearch_complete 4).2 fourInstances
    (runFrom_reach fourInstances_run)
  refine ⟨by decide, by decide, ?_⟩
  rcases hfinished (by decide) with hnil | ⟨_, hremain⟩
  · exact absurd hnil (by decide)
  · exact hremain 2 (by decide)

end Cvise
