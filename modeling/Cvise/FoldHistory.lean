import Cvise.Folding
import Mathlib.Data.List.Pairwise

namespace Cvise
set_option autoImplicit true

variable {L : Type}

/-- A call of a method of `FoldingManager`, other than the one that has no state. -/
inductive FoldCall (L : Type) where
  | onTransformJobSuccess (state : Option (PassState L))
  | onTransformJobFailure (state : Option (PassState L))
  | maybePrepareFoldingJob (jobOrder : Nat) (bestSuccessState : Option (PassState L))
      (choice : FoldChoice)

def SameStates (f g : List HintState) : Prop := ∀ s, s ∈ f ↔ s ∈ g

instance : Std.Symm fun f g => ¬ SameStates f g where
  symm _ _ h hback := h fun s => (hback s).symm

namespace FoldingManager

/-- The fold that a call returns, and the manager after it. -/
def call (fm : FoldingManager) : FoldCall L → Option (List HintState) × FoldingManager
  | .onTransformJobSuccess state => (none, fm.onTransformJobSuccess state)
  | .onTransformJobFailure state => (none, fm.onTransformJobFailure state)
  | .maybePrepareFoldingJob jobOrder best choice => fm.maybePrepareFoldingJob jobOrder best choice

def returnedFolds : FoldingManager → List (FoldCall L) → List (List HintState)
  | _, [] => []
  | fm, c :: cs => (fm.call c).1.toList ++ (fm.call c).2.returnedFolds cs

/-- The candidates that are not banned. -/
def toFold (fm : FoldingManager) (best : Option (PassState L)) (choice : FoldChoice) :
    List HintState :=
  fm.foldingCandidates.dedup.filter (· ∉ fm.bannedStates (forcelistStates best) choice.bans)

/-- The call comes to make a tuple of the set of states to fold. -/
def MakesTuple (fm : FoldingManager) (jobOrder : Nat) (best : Option (PassState L))
    (choice : FoldChoice) : Prop :=
  2 ≤ fm.foldingCandidates.length ∧ fm.attemptedFolds.length ≤ jobOrder / 5 ∧
    (forcelistStates best).length < (fm.toFold best choice).length

/-- If Python iterates a set of states again, then in the order of the tuple that it made before. -/
def KeepsOrder (fm : FoldingManager) : FoldCall L → Prop
  | .maybePrepareFoldingJob jobOrder best choice => fm.MakesTuple jobOrder best choice →
      ∀ f ∈ fm.attemptedFolds, SameStates f (fm.toFold best choice) →
        arrange choice.arranged (fm.toFold best choice) = f
  | _ => True

/-- Each of the calls does so in its turn. -/
def KeepOrders : FoldingManager → List (FoldCall L) → Prop
  | _, [] => True
  | fm, c :: cs => fm.KeepsOrder c ∧ (fm.call c).2.KeepOrders cs

/-- What a call does to the attempted folds: it returns one more, or none. -/
inductive Attempts (fm : FoldingManager) (c : FoldCall L) : Prop
  | none (hreturned : (fm.call c).1 = none)
      (hattempted : (fm.call c).2.attemptedFolds = fm.attemptedFolds)
      (hkeeps : fm.attemptedFolds.Pairwise (fun f g => ¬ SameStates f g) → fm.KeepsOrder c)
  | one (hreturned : (fm.call c).1 = some state)
      (hattempted : (fm.call c).2.attemptedFolds = fm.attemptedFolds ++ [state])
      (hkeeps : fm.KeepsOrder c ↔ ∀ f ∈ fm.attemptedFolds, ¬ SameStates f state)

theorem maybePrepareFoldingJob_eq (fm : FoldingManager) (jobOrder : Nat)
    (best : Option (PassState L)) (choice : FoldChoice) :
    (¬ fm.MakesTuple jobOrder best choice ∧
      fm.maybePrepareFoldingJob jobOrder best choice = (none, fm)) ∨
    fm.MakesTuple jobOrder best choice ∧ ∃ state,
      arrange choice.arranged (fm.toFold best choice) = state ∧
        fm.maybePrepareFoldingJob jobOrder best choice =
          if state ∈ fm.attemptedFolds then (none, fm)
          else (some state, { fm with attemptedFolds := fm.attemptedFolds ++ [state] }) := by
  rw [maybePrepareFoldingJob]
  split
  · rename_i hfew
    exact .inl ⟨fun h => absurd hfew (Nat.not_lt_of_le h.1), rfl⟩
  · rename_i hfew
    split
    · rename_i hfrequent
      exact .inl ⟨fun h => absurd hfrequent (Nat.not_lt_of_le h.2.1), rfl⟩
    · rename_i hfrequent
      by_cases hsmall : (fm.toFold best choice).length ≤ (forcelistStates best).length
      · exact .inl ⟨fun h => absurd hsmall (Nat.not_le_of_lt h.2.2), if_pos hsmall⟩
      · have hmakes : fm.MakesTuple jobOrder best choice :=
          ⟨Nat.le_of_not_lt hfew, Nat.le_of_not_lt hfrequent, Nat.lt_of_not_le hsmall⟩
        exact .inr ⟨hmakes, _, rfl, if_neg hsmall⟩

theorem onTransformJobSuccess_attempted (fm : FoldingManager) (state : Option (PassState L)) :
    (fm.onTransformJobSuccess state).attemptedFolds = fm.attemptedFolds := by
  unfold onTransformJobSuccess
  split
  · rfl
  · rfl

theorem onTransformJobFailure_attempted (fm : FoldingManager) (state : Option (PassState L)) :
    (fm.onTransformJobFailure state).attemptedFolds = fm.attemptedFolds := by
  unfold onTransformJobFailure
  split
  · rfl
  · rfl

theorem attempts (fm : FoldingManager) (c : FoldCall L) : fm.Attempts c := by
  cases c with
  | onTransformJobSuccess state =>
    exact .none rfl (fm.onTransformJobSuccess_attempted state) fun _ => trivial
  | onTransformJobFailure state =>
    exact .none rfl (fm.onTransformJobFailure_attempted state) fun _ => trivial
  | maybePrepareFoldingJob jobOrder best choice =>
    rcases fm.maybePrepareFoldingJob_eq jobOrder best choice with
      ⟨hstops, heq⟩ | ⟨hmakes, state, hstate, heq⟩
    · exact .none (congrArg Prod.fst heq) (congrArg (·.2.attemptedFolds) heq)
        fun _ hmakes => absurd hmakes hstops
    · have hsame : ∀ f, SameStates f (fm.toFold best choice) ↔ SameStates f state := by
        intro f
        simp only [SameStates, ← hstate, mem_arrange]
      split at heq
      · rename_i hmem
        refine .none (congrArg Prod.fst heq) (congrArg (·.2.attemptedFolds) heq) ?_
        intro hdistinct _ f hf hfsame
        rw [hstate]
        by_contra hne
        exact hdistinct.forall hf hmem (Ne.symm hne) ((hsame f).1 hfsame)
      · rename_i hnew
        refine .one (congrArg Prod.fst heq) (congrArg (·.2.attemptedFolds) heq) ?_
        constructor
        · intro hkeeps f hf hfsame
          have hf' := hkeeps hmakes f hf ((hsame f).2 hfsame)
          rw [hstate] at hf'
          exact hnew (hf' ▸ hf)
        · intro hnone _ f hf hfsame
          exact absurd ((hsame f).1 hfsame) (hnone f hf)

/-- The folds stay different from those attempted before exactly as long as the orders are kept. -/
theorem distinct_iff (cs : List (FoldCall L)) (fm : FoldingManager)
    (h : fm.attemptedFolds.Pairwise fun f g => ¬ SameStates f g) :
    (fm.attemptedFolds ++ fm.returnedFolds cs).Pairwise (fun f g => ¬ SameStates f g) ↔
      fm.KeepOrders cs := by
  induction cs generalizing fm with
  | nil =>
    rw [returnedFolds, List.append_nil]
    exact ⟨fun _ => trivial, fun _ => h⟩
  | cons c cs ih =>
    rw [returnedFolds, KeepOrders]
    cases fm.attempts c with
    | none hreturned hattempted hkeeps =>
      rw [hreturned, Option.toList_none, List.nil_append, ← hattempted, ih _ (hattempted ▸ h)]
      exact ⟨fun hrest => ⟨hkeeps h, hrest⟩, fun hall => hall.2⟩
    | @one state hreturned hattempted hkeeps =>
      rw [hreturned, hkeeps, Option.toList_some, ← List.append_assoc, ← hattempted]
      have hpairwise : (fm.call c).2.attemptedFolds.Pairwise (fun f g => ¬ SameStates f g) ↔
          ∀ f ∈ fm.attemptedFolds, ¬ SameStates f state := by
        rw [hattempted, List.pairwise_append]
        simp [h]
      constructor
      · intro hall
        have hnext := (List.pairwise_append.1 hall).1
        exact ⟨hpairwise.1 hnext, (ih _ hnext).1 hall⟩
      · intro ⟨hstate, hrest⟩
        exact (ih _ (hpairwise.2 hstate)).2 hrest

end FoldingManager

/-- No two folds have the same set of states exactly if a set of states for which a tuple was made
is always iterated in the order of this tuple. -/
theorem folds_distinct_iff (calls : List (FoldCall L)) :
    (FoldingManager.returnedFolds {} calls).Pairwise (fun f g => ¬ SameStates f g) ↔
      FoldingManager.KeepOrders {} calls :=
  FoldingManager.distinct_iff calls {} List.Pairwise.nil

/-- The state of a pass with hints of this type only, all in one file. -/
def stubState (type : UInt8) : HintState where
  tmpDir := 0
  perTypeStates := [⟨[type], 0, .binary ⟨1, 1, 0, Nat.one_pos⟩⟩]
  ptr := 0
  specialHints := []
  ptr_lt _ := Nat.zero_lt_one

/-- Two states are folded, then five in vain, and then three of these are banned. In a table with
room for five the two states may come in the other order. -/
def refoldCalls : List (FoldCall Nat) :=
  [.onTransformJobSuccess (some (.hint (stubState 1))),
    .onTransformJobSuccess (some (.hint (stubState 2))),
    .maybePrepareFoldingJob 100 none { arranged := [stubState 1, stubState 2] }] ++
  [3, 4, 5].map (fun type => .onTransformJobSuccess (some (.hint (stubState type)))) ++
  [.maybePrepareFoldingJob 100 none { arranged := [2, 1, 3, 4, 5].map stubState },
    .onTransformJobFailure (some (.foldOut ⟨[2, 1, 3, 4, 5].map stubState, [], []⟩)),
    .maybePrepareFoldingJob 100 none
      { bans := [[3, 4, 5].map stubState], arranged := [stubState 2, stubState 1] }]

/-- The first and the last fold have the same two states. -/
theorem refoldCalls_same :
    FoldingManager.returnedFolds {} refoldCalls =
      [[1, 2].map stubState, [2, 1, 3, 4, 5].map stubState, [2, 1].map stubState] ∧
    SameStates ([1, 2].map stubState) ([2, 1].map stubState) := by
  apply And.intro (by decide)
  intro s
  simp [or_comm]

end Cvise
