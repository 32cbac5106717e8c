import Cvise.Pass
import Mathlib.Data.List.Dedup

namespace Cvise
set_option autoImplicit true

variable {L : Type}

structure FoldingManager where
  foldingCandidates : List HintState := []
  failedFolds : List FoldingStateOut := []
  attemptedFolds : List (List HintState) := []
deriving DecidableEq

/-- The random choices of one `maybe_prepare_folding_job` call: what it bans from each failed fold,
and the order in which it goes through the set of states to fold. -/
structure FoldChoice where
  bans : List (List HintState) := []
  arranged : List HintState := []

/-- `random.sample(xs, k)`, if `picked` is such a sample. -/
def sample (picked xs : List HintState) (k : Nat) : List HintState :=
  if picked.Nodup ∧ picked ⊆ xs ∧ picked.length = k then picked else xs.take k

/-- The elements of a set in the order `arranged`, if that is an order of them. -/
def arrange (arranged xs : List HintState) : List HintState :=
  if arranged.Perm xs then arranged else xs

namespace FoldingManager

def jobCountFactor : Nat := 10

def onTransformJobSuccess (fm : FoldingManager) : Option (PassState L) → FoldingManager
  | some (.hint s) => { fm with foldingCandidates := fm.foldingCandidates ++ [s] }
  | _ => fm

def onTransformJobFailure (fm : FoldingManager) : Option (PassState L) → FoldingManager
  | some (.foldOut s) => { fm with failedFolds := fm.failedFolds ++ [s] }
  | _ => fm

def forcelistStates : Option (PassState L) → List HintState
  | some (.hint s) => [s]
  | some (.foldOut s) => s.subStates.dedup
  | _ => []

/-- Half of each failed fold, the states that must be taken excepted. -/
def bannedStates (fm : FoldingManager) (forcelist : List HintState) (bans : List (List HintState)) :
    List HintState :=
  fm.failedFolds.zipIdx.flatMap fun e =>
    let potentialBan := e.1.subStates.dedup.filter (· ∉ forcelist)
    sample (bans.getD e.2 []) potentialBan ((potentialBan.length + 1) / 2)

def maybePrepareFoldingJob (fm : FoldingManager) (jobOrder : Nat)
    (bestSuccessState : Option (PassState L)) (choice : FoldChoice) :
    Option (List HintState) × FoldingManager :=
  if fm.foldingCandidates.length < 2 then (none, fm)
  else if fm.attemptedFolds.length > jobOrder / 5 then (none, fm)
  else
    let forcelist := forcelistStates bestSuccessState
    let banned := fm.bannedStates forcelist choice.bans
    let toFold := fm.foldingCandidates.dedup.filter (· ∉ banned)
    if toFold.length ≤ forcelist.length then (none, fm)
    else
      let state := arrange choice.arranged toFold
      if state ∈ fm.attemptedFolds then (none, fm)
      else (some state, { fm with attemptedFolds := fm.attemptedFolds ++ [state] })

def continueAttemptingFolds (jobOrder parallelTests passCount : Nat) : Bool :=
  jobOrder < jobCountFactor * max parallelTests passCount

theorem mem_arrange {xs : List HintState} : s ∈ arrange arranged xs ↔ s ∈ xs := by
  rw [arrange]
  split
  case isTrue h => exact h.mem_iff
  case isFalse => rfl

theorem maybePrepareFoldingJob_subset {fm : FoldingManager}
    (h : (fm.maybePrepareFoldingJob jobOrder best choice).1 = some (state : List HintState)) :
    ∀ s ∈ state, s ∈ fm.foldingCandidates := by
  unfold maybePrepareFoldingJob at h
  split at h
  · cases h
  · split at h
    · cases h
    · simp only at h
      split at h
      · cases h
      · split at h
        · cases h
        · cases h
          intro s hs
          exact List.mem_dedup.1 (List.mem_filter.1 (mem_arrange.1 hs)).1

theorem maybePrepareFoldingJob_candidates (fm : FoldingManager) (jobOrder : Nat)
    (best : Option (PassState L)) (choice : FoldChoice) :
    (fm.maybePrepareFoldingJob jobOrder best choice).2.foldingCandidates = fm.foldingCandidates := by
  unfold maybePrepareFoldingJob
  split
  · rfl
  · split
    · rfl
    · simp only
      split
      · rfl
      · split
        · rfl
        · rfl

theorem onTransformJobSuccess_candidates {fm : FoldingManager} {state : Option (PassState L)} :
    s ∈ (fm.onTransformJobSuccess state).foldingCandidates ↔
      s ∈ fm.foldingCandidates ∨ state = some (.hint s) := by
  unfold onTransformJobSuccess
  split
  · simp [eq_comm]
  · rename_i hne
    exact ⟨.inl, fun h => h.resolve_right (hne s)⟩

theorem onTransformJobFailure_candidates (fm : FoldingManager) (state : Option (PassState L)) :
    (fm.onTransformJobFailure state).foldingCandidates = fm.foldingCandidates := by
  unfold onTransformJobFailure
  split
  · rfl
  · rfl

end FoldingManager

end Cvise
