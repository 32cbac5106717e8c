import Cvise.Pass
import Mathlib.Algebra.BigOperators.Group.List.Basic

namespace Cvise
set_option autoImplicit true

variable {L : Type}

inductive PassStage where
  | beforeInit
  | inInit
  | enumerating
deriving DecidableEq

/-- `PassContext`: the runtime data of a currently active pass. -/
structure PassContext (L : Type) where
  pass : Pass L
  stage : PassStage := .beforeInit
  enabled : Bool := true
  temporaryRoot : Option DirName := none
  state : Option (PassState L) := none
  takenSucceededState : Option (PassState L) := none
  currentBatchSucceededStates : List (Option (PassState L)) := []
  passJobCounter : Nat := 0
  lastSuccessPassJobCounter : Nat := 0
  currentBatchStartJobCounter : Nat := 0
  runningTransformOrderToState : List (Nat × PassState L) := []
  defunct : Bool := false
  timeoutCount : Nat := 0
  hintBundlePaths : Dict Bytes HintPath := []

namespace PassContext

def create (p : Pass L) : PassContext L := { pass := p }

def jobsInCurrentBatch (c : PassContext L) : Nat :=
  c.passJobCounter - c.currentBatchStartJobCounter

def jobsSinceLastSuccess (c : PassContext L) : Nat :=
  c.passJobCounter - c.lastSuccessPassJobCounter

def canInitNow (c : PassContext L) (readyHintTypes : List Bytes) : Bool :=
  c.enabled && !c.defunct && c.stage == .beforeInit &&
    c.pass.inputHintTypes.all fun t => decide (t ∈ readyHintTypes)

def canTransformNow (c : PassContext L) : Bool :=
  c.enabled && !c.defunct && c.stage == .enumerating && c.state.isSome

def canStartJobNow (c : PassContext L) (readyHintTypes : List Bytes) : Bool :=
  c.canInitNow readyHintTypes || c.canTransformNow

def canScheduleForRestart (c : PassContext L) : Bool :=
  c.stage == .enumerating && c.state.isNone &&
    c.hintBundlePaths.any fun e => !isSpecialHintType e.1

/-- The pass is usable and takes one of these types as an input. -/
def consumes (c : PassContext L) (types : List Bytes) : Bool :=
  c.enabled && !c.defunct && c.pass.inputHintTypes.any fun t => decide (t ∈ types)

def shouldReinitAfterTestCaseUpdate (c : PassContext L) (otherContexts : List (PassContext L)) :
    Bool :=
  c.stage == .enumerating && c.state.isSome ||
    otherContexts.any fun o => o.consumes c.pass.outputHintTypes

def subsetOfSucceeded (c : PassContext L) (s : HintState) : Bool :=
  c.currentBatchSucceededStates.any fun t =>
    match t with
    | some (.hint t) => s.subsetOf t
    | _ => false

end PassContext

/-- The loop of `advance_while_subset_of_succeeded`, with `fuel` for at least all its rounds. -/
def advanceWhile (skip : HintState → Bool) (rnd : Nat → Nat) : Nat → HintState → Option HintState
  | 0, s => some s
  | fuel + 1, s =>
    if skip s then
      match s.advance (rnd fuel) with
      | none => none
      | some s' => advanceWhile skip rnd fuel s'
    else some s

def PassContext.advanceWhileSubsetOfSucceeded (c : PassContext L) (rnd : Nat → Nat) :
    PassContext L :=
  match c.pass.methods, c.state with
  | .hint _, some (.hint s) =>
    { c with state := (advanceWhile c.subsetOfSucceeded rnd (s.stepsLeft + 1) s).map .hint }
  | _, _ => c

def getFullyInitializedHintTypes (contexts : List (PassContext L)) : List Bytes :=
  let readyTypes := (contexts.filter (·.stage = .enumerating)).flatMap (·.pass.outputHintTypes)
  let missingTypes := (contexts.filter (·.stage ≠ .enumerating)).flatMap (·.pass.outputHintTypes)
  readyTypes.filter (· ∉ missingTypes)

theorem mem_getFullyInitializedHintTypes {contexts : List (PassContext L)} :
    t ∈ getFullyInitializedHintTypes contexts ↔
      (∃ c ∈ contexts, t ∈ c.pass.outputHintTypes) ∧
        ∀ c ∈ contexts, t ∈ c.pass.outputHintTypes → c.stage = .enumerating := by
  simp only [getFullyInitializedHintTypes, List.mem_filter, List.mem_flatMap, decide_eq_true_eq]
  grind

namespace HintState

theorem stepsLeft_split {s : HintState} (h : s.currentSubstate = some u) :
    s.stepsLeft = ((s.perTypeStates.take s.ptr).map fun u => u.underlyingState.stepsLeft).sum +
      u.underlyingState.stepsLeft +
      ((s.perTypeStates.drop (s.ptr + 1)).map fun u => u.underlyingState.stepsLeft).sum := by
  obtain ⟨hlt, hu⟩ := List.getElem?_eq_some_iff.1 h
  have hsplit : s.perTypeStates = s.perTypeStates.take s.ptr ++ u :: s.perTypeStates.drop (s.ptr + 1) := by
    rw [← hu, ← List.drop_eq_getElem_cons hlt, List.take_append_drop]
  rw [stepsLeft]
  conv_lhs => rw [hsplit]
  rw [List.map_append, List.map_cons, List.sum_append, List.sum_cons, Nat.add_assoc]

theorem stepsLeft_withStates (s : HintState) (states : List PerTypeHintState) (ptr : Nat) :
    (s.withStates states ptr).stepsLeft =
      (states.map fun u => u.underlyingState.stepsLeft).sum := rfl

theorem advance_stepsLeft {s s' : HintState} (hu : s.currentSubstate = some u)
    (hv : u.underlyingState = .binary v) (h : s.advance rnd = some s') :
    s'.stepsLeft < s.stepsLeft := by
  have hsplit := stepsLeft_split hu
  have hbin : u.underlyingState.stepsLeft = v.stepsLeft := by rw [hv, ElementaryState.stepsLeft]
  obtain ⟨hlt, _⟩ := List.getElem?_eq_some_iff.1 hu
  rw [advance, hu] at h
  simp only [PerTypeHintState.advance, hv, ElementaryState.advance] at h
  cases hadv : v.advance with
  | none =>
    rw [hadv] at h
    simp only [Option.map_none] at h
    split at h
    · cases h
    · cases h
      have hpos := v.stepsLeft_pos
      rw [stepsLeft_withStates, List.eraseIdx_eq_take_drop_succ, List.map_append, List.sum_append]
      omega
  | some v' =>
    rw [hadv] at h
    simp only [Option.map_some] at h
    cases h
    have hdec := BinaryState.advance_stepsLeft hadv
    rw [stepsLeft_withStates, List.set_eq_take_append_cons_drop, if_pos hlt, List.map_append,
      List.map_cons, List.sum_append, List.sum_cons, ElementaryState.stepsLeft]
    omega

end HintState

/-- The fuel suffices: the loop ends at the end of the enumeration or at a state to be tried. -/
theorem advanceWhile_done (hskip : ∀ s : HintState, skip s → ∃ u v,
      s.currentSubstate = some u ∧ u.underlyingState = .binary v)
    (hfuel : s.stepsLeft < fuel) (h : advanceWhile skip rnd fuel s = some s') : ¬ skip s' := by
  induction fuel generalizing s with
  | zero => omega
  | succ n ih =>
    rw [advanceWhile] at h
    split at h
    · rename_i hs
      obtain ⟨u, v, hu, hv⟩ := hskip s hs
      split at h
      · cases h
      · rename_i t ht
        have hdec := HintState.advance_stepsLeft hu hv ht
        exact ih (by omega) h
    · rename_i hs
      cases h
      exact hs

end Cvise
