import Cvise.ElementaryState

namespace Cvise
set_option autoImplicit true

/-- What a test says of a variant. After a success the conditionals are counted again. -/
inductive Verdict where
  | failed
  | succeeded (instances : Nat)
deriving DecidableEq

/-- The state of `IfPass`: a binary-search state with the attribute `value` that the pass adds. -/
structure IfState extends BinaryState where
  value : Nat
deriving DecidableEq

namespace IfState

/-- `IfPass.new`, with what `__count_instances` returns. -/
def new (count : Nat) : Option IfState := (BinaryState.create count).map fun bs => ⟨bs, 0⟩

def advance (s : IfState) : Option IfState :=
  if s.value = 0 then some { s with value := 1 }
  else s.toBinaryState.advance.map fun bs => ⟨bs, 0⟩

/-- `IfPass.advance_on_success`. The state that it returns is the old one or a copy, so it has the
old value. -/
def advanceOnSuccess (s : IfState) (count : Nat) : Option IfState :=
  (s.toBinaryState.advanceOnSuccess count).map fun bs => ⟨bs, s.value⟩

def next (s : IfState) : Verdict → Option IfState
  | .failed => s.advance
  | .succeeded count => s.advanceOnSuccess count

/-- One variant that was tried: the window, the value for its conditionals, and the verdict. -/
structure Trial where
  window : BinaryState
  value : Nat
  verdict : Verdict
deriving DecidableEq

/-- What a run tries for a list of verdicts, and the state that is left. -/
def run : Option IfState → List Verdict → List Trial × Option IfState
  | none, _ => ([], none)
  | some s, [] => ([], some s)
  | some s, v :: vs =>
    (⟨s.toBinaryState, s.value, v⟩ :: (run (s.next v) vs).1, (run (s.next v) vs).2)

/-- The trials are visits of windows, each with value 0 first, and then with value 1 unless the
trial with value 0 succeeded. The last visit may be under way. -/
inductive BothTried : List Trial → Option IfState → Prop
  | done (h : ∀ s ∈ left, s.value = 0) : BothTried [] left
  | between (w : BinaryState) : BothTried [⟨w, 0, .failed⟩] (some ⟨w, 1⟩)
  | zero (w : BinaryState) (count : Nat) (h : BothTried trials left) :
      BothTried (⟨w, 0, .succeeded count⟩ :: trials) left
  | both (w : BinaryState) (v : Verdict) (h : BothTried trials left) :
      BothTried (⟨w, 0, .failed⟩ :: ⟨w, 1, v⟩ :: trials) left

/-- A success that does not leave a value of 1 behind: it came with value 0, or it ends the pass,
since no conditional is left or the last window of size 1 is behind all of them. -/
def Trial.ResetsValue (t : Trial) : Prop := ∀ count, t.verdict = .succeeded count →
  t.value = 0 ∨ count = 0 ∨ (count ≤ t.window.index ∧ t.window.chunk = 1)

theorem run_cons (s : IfState) (v : Verdict) (vs : List Verdict) : run (some s) (v :: vs) =
    (⟨s.toBinaryState, s.value, v⟩ :: (run (s.next v) vs).1, (run (s.next v) vs).2) := by
  rw [run]

theorem next_failed_one (w : BinaryState) :
    ∀ s ∈ (⟨w, 1⟩ : IfState).next .failed, s.value = 0 := by
  intro s hs
  obtain ⟨bs, -, rfl⟩ := Option.map_eq_some_iff.1 hs
  rfl

theorem next_succeeded (w : BinaryState) (value count : Nat) :
    ∀ s ∈ (⟨w, value⟩ : IfState).next (.succeeded count), s.value = value := by
  intro s hs
  obtain ⟨bs, -, rfl⟩ := Option.map_eq_some_iff.1 hs
  rfl

theorem advanceOnSuccess_eq_none (w : BinaryState) (count : Nat) :
    w.advanceOnSuccess count = none ↔ count = 0 ∨ (count ≤ w.index ∧ w.chunk = 1) := by
  have hpos := w.chunk_pos
  rw [BinaryState.advanceOnSuccess]
  split
  · simp [*]
  · rename_i hcount
    by_cases hle : count ≤ w.index
    · by_cases hhalf : 0 < w.chunk / 2
      · have hne : w.chunk ≠ 1 := by omega
        simp [BinaryState.advance, hle, hcount, hhalf, hne, Nat.le_add_right_of_le]
      · have hone : w.chunk = 1 := by omega
        simp [BinaryState.advance, hle, hone, Nat.le_add_right_of_le]
    · simp [hle, hcount]

theorem next_eq_none (w : BinaryState) (count : Nat) :
    (⟨w, 1⟩ : IfState).next (.succeeded count) = none ↔
      count = 0 ∨ (count ≤ w.index ∧ w.chunk = 1) :=
  Option.map_eq_none_iff.trans (advanceOnSuccess_eq_none w count)

/-- A run from value 1 is no sequence of visits by itself. -/
theorem not_bothTried_one (w : BinaryState) (vs : List Verdict) :
    ¬ BothTried (run (some ⟨w, 1⟩) vs).1 (run (some ⟨w, 1⟩) vs).2 := by
  intro h
  cases vs with
  | nil =>
    cases h with
    | done hleft => exact absurd (hleft ⟨w, 1⟩ rfl) Nat.one_ne_zero
  | cons v vs =>
    rw [run_cons] at h
    cases h

theorem bothTried_zero (w : BinaryState) (count : Nat) :
    BothTried (⟨w, 0, .succeeded count⟩ :: trials) left ↔ BothTried trials left := by
  constructor
  · intro h
    cases h with
    | zero _ _ h => exact h
  · exact .zero w count

theorem bothTried_both (w : BinaryState) (v : Verdict) :
    BothTried (⟨w, 0, .failed⟩ :: ⟨w, 1, v⟩ :: trials) left ↔ BothTried trials left := by
  constructor
  · intro h
    cases h with
    | both _ _ h => exact h
  · exact .both w v

theorem resetsValue_failed (w : BinaryState) (value : Nat) :
    (⟨w, value, .failed⟩ : Trial).ResetsValue := fun _ h => Verdict.noConfusion h

theorem resetsValue_zero (w : BinaryState) (v : Verdict) : (⟨w, 0, v⟩ : Trial).ResetsValue :=
  fun _ _ => .inl rfl

/-- With value 1 a success resets the value where there is no next state to have it. -/
theorem resetsValue_one (w : BinaryState) (count : Nat) :
    (⟨w, 1, .succeeded count⟩ : Trial).ResetsValue ↔
      (⟨w, 1⟩ : IfState).next (.succeeded count) = none := by
  rw [next_eq_none]
  constructor
  · intro h
    exact (h count rfl).resolve_left Nat.one_ne_zero
  · intro h n hn
    obtain rfl := Verdict.succeeded.inj hn
    exact .inr h

/-- From a state with value 0, or in the middle of a visit. -/
theorem run_bothTried (vs : List Verdict) :
    (∀ left : Option IfState, (∀ s ∈ left, s.value = 0) →
      (BothTried (run left vs).1 (run left vs).2 ↔ ∀ t ∈ (run left vs).1, t.ResetsValue)) ∧
    ∀ w : BinaryState, (BothTried (⟨w, 0, .failed⟩ :: (run (some ⟨w, 1⟩) vs).1)
        (run (some ⟨w, 1⟩) vs).2 ↔
      ∀ t ∈ (run (some ⟨w, 1⟩) vs).1, t.ResetsValue) := by
  induction vs with
  | nil =>
    constructor
    · intro left hleft
      cases left with
      | none => exact iff_of_true (.done hleft) fun t ht => absurd ht List.not_mem_nil
      | some s => exact iff_of_true (.done hleft) fun t ht => absurd ht List.not_mem_nil
    · intro w
      exact iff_of_true (.between w) fun t ht => absurd ht List.not_mem_nil
  | cons v vs ih =>
    obtain ⟨hstart, hmiddle⟩ := ih
    constructor
    · intro left hleft
      cases left with
      | none => exact iff_of_true (.done hleft) fun t ht => absurd ht List.not_mem_nil
      | some s =>
        obtain ⟨w, value⟩ := s
        obtain rfl : value = 0 := hleft _ rfl
        rw [run_cons, List.forall_mem_cons, and_iff_right (resetsValue_zero w v)]
        cases v with
        | failed => exact hmiddle w
        | succeeded count =>
          exact (bothTried_zero w count).trans (hstart _ (next_succeeded w 0 count))
    · intro w
      rw [run_cons, List.forall_mem_cons]
      refine (bothTried_both w v).trans ?_
      cases v with
      | failed =>
        rw [and_iff_right (resetsValue_failed w 1)]
        exact hstart _ (next_failed_one w)
      | succeeded count =>
        rw [resetsValue_one]
        cases hnext : (⟨w, 1⟩ : IfState).next (.succeeded count) with
        | none =>
          rw [and_iff_right rfl]
          exact hstart none fun s hs => absurd hs.symm (Option.some_ne_none s)
        | some s =>
          -- The next window would start with value 1.
          obtain ⟨w', value⟩ := s
          obtain rfl : value = 1 := next_succeeded w 1 count _ hnext
          refine iff_of_false (not_bothTried_one w' vs) fun h => ?_
          exact Option.some_ne_none _ h.1

/-- A run tries both values of each window exactly if every success resets the value. -/
theorem tries_both_iff (count : Nat) (vs : List Verdict) :
    BothTried (run (new count) vs).1 (run (new count) vs).2 ↔
      ∀ t ∈ (run (new count) vs).1, t.ResetsValue := by
  refine (run_bothTried vs).1 (new count) fun s hs => ?_
  obtain ⟨bs, -, rfl⟩ := Option.map_eq_some_iff.1 hs
  rfl

/-- Four conditionals: the windows of 4 and of the first 2 fail, and that of the last 2 succeeds
with value 1 and leaves 2. The window of the first conditional is then tried with value 1 alone. -/
def valueKept : List Verdict :=
  [.failed, .failed, .failed, .failed, .failed, .succeeded 2, .failed]

theorem value_one_first :
    ¬ ∀ (count : Nat) (vs : List Verdict), BothTried (run (new count) vs).1 (run (new count) vs).2 := by
  intro h
  have hvisits := (bothTried_both _ _).1 ((bothTried_both _ _).1 ((bothTried_both _ _).1
    (h 4 valueKept)))
  exact not_bothTried_one ⟨2, 1, 0, Nat.one_pos⟩ [.failed] hvisits

end IfState

end Cvise
