import Cvise.ElementaryState
import Cvise.Hint

namespace Cvise
set_option autoImplicit true

/-- Identifies a directory made by `TmpDirManager`; a name may be used again after its deletion. -/
abbrev DirName := Nat

/-- Identifies a hint file within its directory: the n-th one created there. -/
abbrev FileName := Nat

abbrev HintPath := DirName × FileName

structure PerTypeHintState where
  type : Bytes
  hintsFileName : FileName
  underlyingState : ElementaryState
deriving DecidableEq

namespace PerTypeHintState

def advance (rnd : Nat) (s : PerTypeHintState) : Option PerTypeHintState :=
  (s.underlyingState.advance rnd).map fun next => { s with underlyingState := next }

def advanceOnSuccess (rnd newHintCount : Nat) (newFileName : FileName) (s : PerTypeHintState) :
    Option PerTypeHintState :=
  (s.underlyingState.advanceOnSuccess rnd newHintCount).map fun next =>
    { s with hintsFileName := newFileName, underlyingState := next }

def subsetOf (s other : PerTypeHintState) : Bool :=
  match s.underlyingState, other.underlyingState with
  | .binary u, .binary v =>
    s.type = other.type ∧ s.hintsFileName = other.hintsFileName ∧ u.instances = v.instances ∧
      v.index ≤ u.index ∧ u.end ≤ v.end
  | _, _ => false

end PerTypeHintState

structure SpecialHintState where
  type : Bytes
  hintsFileName : FileName
  hintCount : Nat
deriving DecidableEq

/-- `HintState`. The standard that `ClangState` remembers is none for other passes. -/
structure HintState where
  tmpDir : DirName
  perTypeStates : List PerTypeHintState
  ptr : Nat
  specialHints : List SpecialHintState
  clangStd : Option Str := none
  ptr_lt : perTypeStates ≠ [] → ptr < perTypeStates.length
deriving DecidableEq

namespace HintState

/-- `HintState.create`, which asserts that there is something to store. -/
def create (tmpDir : DirName) (perTypeStates : List PerTypeHintState)
    (specialHints : List SpecialHintState) (clangStd : Option Str) : HintState where
  tmpDir := tmpDir
  perTypeStates := perTypeStates.insertionSort (·.type ≤ ·.type)
  ptr := 0
  specialHints := specialHints.insertionSort (·.type ≤ ·.type)
  clangStd := clangStd
  ptr_lt := List.length_pos_of_ne_nil

/-- Nothing is enumerated if there are only special hints. -/
def currentSubstate (s : HintState) : Option PerTypeHintState := s.perTypeStates[s.ptr]?

def realChunk (s : HintState) : Nat :=
  match s.currentSubstate with
  | some sub => sub.underlyingState.realChunk
  | none => 0

/-- The states with the pointer moved on in the round-robin fashion. -/
def withStates (s : HintState) (states : List PerTypeHintState) (ptr : Nat) : HintState :=
  { s with
    perTypeStates := states
    ptr := ptr % states.length
    ptr_lt := fun h => Nat.mod_lt _ (List.length_pos_of_ne_nil h) }

def advance (rnd : Nat) (s : HintState) : Option HintState :=
  match s.currentSubstate with
  | none => none
  | some sub =>
    match sub.advance rnd with
    | none =>
      if s.perTypeStates.length = 1 then none
      else some (s.withStates (s.perTypeStates.eraseIdx s.ptr) s.ptr)
    | some next => some (s.withStates (s.perTypeStates.set s.ptr next) (s.ptr + 1))

/-- The hint types of the new hints, each with its bundle and the file that stores it. -/
abbrev StoredTypes := List (Bytes × HintBundle × FileName)

def StoredTypes.find (stored : StoredTypes) (type : Bytes) : Option (HintBundle × FileName) :=
  (List.find? (·.1 = type) stored).map Prod.snd

def specialStates (stored : StoredTypes) : List SpecialHintState :=
  (stored.filter fun e => isSpecialHintType e.1).map fun e => ⟨e.1, e.2.2, e.2.1.hints.length⟩

/-- One round of the loop in `advance_on_success`; `rnd` has a random number for each state. -/
def advanceSubstate (stored : StoredTypes) (old : PerTypeHintState) (rnd : Nat) :
    Option PerTypeHintState :=
  match stored.find old.type with
  | none => none
  | some (bundle, fileName) => old.advanceOnSuccess rnd bundle.hints.length fileName

def advanceOnSuccess (rnd : Nat → Nat) (s : HintState) (stored : StoredTypes)
    (newTmpDir : DirName) : Option HintState :=
  let subStates := s.perTypeStates.zipIdx.filterMap fun e => advanceSubstate stored e.1 (rnd e.2)
  let newSpecialHints := (specialStates stored).insertionSort (·.type ≤ ·.type)
  if subStates = [] ∧ newSpecialHints = [] then none
  else some
    { s with
      tmpDir := newTmpDir
      perTypeStates := subStates
      ptr := 0
      specialHints := newSpecialHints
      ptr_lt := List.length_pos_of_ne_nil }

def subsetOf (s other : HintState) : Bool :=
  match s.currentSubstate, other.currentSubstate with
  | some u, some v => u.subsetOf v
  | _, _ => false

/-- `hint_bundle_paths`, with the types in order. -/
def hintBundlePaths (s : HintState) : Dict Bytes HintPath :=
  s.perTypeStates.map (fun u => (u.type, s.tmpDir, u.hintsFileName)) ++
    s.specialHints.map fun u => (u.type, s.tmpDir, u.hintsFileName)

theorem currentSubstate_mem {s : HintState} (h : s.currentSubstate = some u) :
    u ∈ s.perTypeStates := List.mem_of_getElem? h

theorem subsetOf_binary {s other : HintState} (h : s.subsetOf other) :
    ∃ u v, s.currentSubstate = some u ∧ u.underlyingState = .binary v := by
  rw [subsetOf] at h
  split at h
  · rename_i u w hu hw
    rw [PerTypeHintState.subsetOf] at h
    split at h
    · rename_i v _ hv _
      exact ⟨u, v, hu, hv⟩
    · cases h
  · cases h

/-- The number of binary-search steps that are left, over all hint types. -/
def stepsLeft (s : HintState) : Nat :=
  (s.perTypeStates.map fun u => u.underlyingState.stepsLeft).sum

theorem advance_paths {s s' : HintState} (h : s.advance rnd = some s') :
    s'.tmpDir = s.tmpDir ∧ s'.specialHints = s.specialHints ∧
      ∀ u ∈ s'.perTypeStates, ∃ v ∈ s.perTypeStates,
        u.type = v.type ∧ u.hintsFileName = v.hintsFileName := by
  rw [advance] at h
  split at h
  · cases h
  · rename_i sub hsub
    split at h
    · split at h
      · cases h
      · cases h
        apply And.intro rfl
        apply And.intro rfl
        intro u hu
        exact ⟨u, List.mem_of_mem_eraseIdx hu, rfl, rfl⟩
    · rename_i next hnext
      cases h
      apply And.intro rfl
      apply And.intro rfl
      intro u hu
      rcases List.mem_or_eq_of_mem_set hu with hu | rfl
      · exact ⟨u, hu, rfl, rfl⟩
      · obtain ⟨w, _, rfl⟩ := Option.map_eq_some_iff.1 hnext
        exact ⟨sub, currentSubstate_mem hsub, rfl, rfl⟩

end HintState

end Cvise
