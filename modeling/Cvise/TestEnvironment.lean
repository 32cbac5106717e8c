import Cvise.Pass

namespace Cvise
set_option autoImplicit true

variable {L T : Type}

/-- The test cases in a job's folder, by their paths. -/
abbrev Folder (T : Type) := T → Option TestCase

section
variable [DecidableEq T]

/-- The folder after a change of what it holds at one path. -/
def Folder.put (f : Folder T) (t : T) (tc : Option TestCase) : Folder T :=
  fun u => if u = t then tc else f u

@[simp]
theorem Folder.put_self (f : Folder T) (t : T) (tc : Option TestCase) : f.put t tc t = tc :=
  if_pos rfl

theorem Folder.put_ne {f : Folder T} (h : u ≠ t) : f.put t tc u = f u := if_neg h

theorem Folder.put_eq {f : Folder T} (h : f t = tc) : f.put t tc = f := by
  funext u
  by_cases hu : u = t
  · rw [hu, put_self, h]
  · exact put_ne hu

end

/-- The hint files that are found under their paths. -/
structure HintReader where
  read : HintPath → Option HintBundle

namespace HintReader

/-- `load_hints` without a range. -/
def loadAll (r : HintReader) (path : HintPath) : Except PyErr HintBundle :=
  match r.read path with
  | none => .error .fileNotFoundError
  | some b => .ok b

/-- `load_hints` for the indices in `[beginIndex, endIndex)`. -/
def loadRange (r : HintReader) (path : HintPath) (beginIndex endIndex : Nat) :
    Except PyErr HintBundle :=
  if beginIndex < endIndex then do
    let b ← r.loadAll path
    return { b with hints := (b.hints.take endIndex).drop beginIndex }
  else .error .assertionError

/-- The hints that a state stands for. -/
def loadState (r : HintReader) (s : HintState) : Except PyErr HintBundle :=
  match s.currentSubstate with
  | none => .error .indexError
  | some sub =>
    r.loadRange (s.tmpDir, sub.hintsFileName) sub.underlyingState.index sub.underlyingState.end

def loadAndApplyHints (r : HintReader) (original : TestCase) (states : List HintState) :
    Except PyErr (Option (Option TestCase × HintApplicationReport)) := do
  let hintBundles ← states.mapM r.loadState
  applyHints hintBundles original

end HintReader

/-- What `transform()` returns and what it leaves at its destination. -/
structure Transformed (L : Type) where
  result : PassResult
  state : Option (PassState L)
  variant : Option TestCase
  writtenPaths : List RelPath := []

/-- `get_passes_ordered_by_delta`. -/
def passesOrderedByDelta (report : HintApplicationReport) : List Str :=
  (report.statsDeltaPerPass.insertionSort fun a b => a.2 ≤ b.2).map Prod.fst

/-- `FoldingManager.transform`. -/
def foldTransform (r : HintReader) (original : TestCase) (subStates : List HintState) :
    Except PyErr (Transformed L) := do
  match ← r.loadAndApplyHints original subStates with
  | none => return ⟨.invalid, none, none, []⟩
  | some (variant, report) =>
    return ⟨.ok, some (.foldOut ⟨subStates, report.statsDeltaPerPass, passesOrderedByDelta report⟩),
      variant, report.writtenPaths⟩

/-- `transform()` of a pass, where `copied` is what was copied to its destination before. -/
def Pass.transform (p : Pass L) (r : HintReader) (seed : Seed) (original : TestCase)
    (copied : Option TestCase) (state : Option (PassState L)) : Except PyErr (Transformed L) :=
  match p.methods, state with
  | .hint _, some (.hint s) =>
    if s.perTypeStates = [] then .ok ⟨.stop, none, copied, []⟩
    else do
      match ← r.loadAndApplyHints original [s] with
      | none => return ⟨.invalid, none, copied, []⟩
      | some (variant, report) => return ⟨.ok, some (.hint s), variant, report.writtenPaths⟩
  | .legacy m, some (.legacy s) =>
    match copied with
    | some (.file data) => do
      let (result, state', data') ← m.transform seed data s
      return ⟨result, state'.map .legacy, some (.file data'), []⟩
    | _ => .error .other
  | _, _ => .error .other

/-- `InitEnvironment` and `AdvanceOnSuccessEnvironment`. -/
inductive InitMethod (L : Type) where
  | new
  | advanceOnSuccess (previousState : PassState L) (succeededState : Option (PassState L))

structure InitEnv (T L : Type) where
  method : InitMethod L
  pass : Pass L
  testCase : T
  tmpDir : DirName
  dependeeBundlePaths : List HintPath
  /-- What `run` returned, once the job is done. -/
  result : Option (PassState L) := none

/-- `run` of an environment for an init job. The files are those that it leaves in `tmpDir`. -/
def InitEnv.run (env : InitEnv T L) (r : HintReader) (seed : Seed) (tc : TestCase) :
    Except PyErr (Option (PassState L) × HintFiles) := do
  let dependeeHints ← env.dependeeBundlePaths.mapM r.loadAll
  match env.method with
  | .new =>
    match env.pass.new seed tc env.tmpDir dependeeHints with
    | .error .unicodeDecodeError => return (none, [])
    | outcome => outcome
  | .advanceOnSuccess previousState succeededState =>
    env.pass.advanceOnSuccess seed tc previousState env.tmpDir succeededState dependeeHints

/-- `TestEnvironment`, with the test cases that are in its folder so far. -/
structure TestEnv (T L : Type) where
  state : Option (PassState L)
  testCase : T
  shouldCopyCurrentTestCase : Bool
  /-- The pass to transform with; none for `FoldingManager.transform`. -/
  pass : Option (Pass L)
  folder : Folder T := fun _ => none
  result : Option PassResult := none
  exitcode : Option Int := none
  originalSize : Option Nat := none
  newSize : Option Nat := none
  writtenPaths : List RelPath := []

namespace TestEnv

def success (env : TestEnv T L) : Bool := env.result = some .ok ∧ env.exitcode = some 0

def sizeImprovement (env : TestEnv T L) : Except PyErr Int :=
  match env.originalSize, env.newSize with
  | some original, some new => if env.success then .ok (original - new) else .error .assertionError
  | _, _ => .error .assertionError

def variant (env : TestEnv T L) : Option TestCase := env.folder env.testCase

section
variable [DecidableEq T]

/-- Whether `copy_test_cases` copies the test case. -/
def copies (env : TestEnv T L) (t : T) : Bool :=
  decide (t ≠ env.testCase) || env.shouldCopyCurrentTestCase

/-- One round of `copy_test_cases`. -/
def copy (env : TestEnv T L) (t : T) (tc : TestCase) : TestEnv T L :=
  { env with folder := env.folder.put t (some tc) }

/-- What `transform` returns or raises: that of the pass, or that of the folding manager. -/
def callTransform (env : TestEnv T L) (r : HintReader) (seed : Seed) (original : TestCase) :
    Except PyErr (Transformed L) :=
  match env.pass with
  | some p => p.transform r seed original env.variant env.state
  | none =>
    match env.state with
    | some (.foldIn subStates) => foldTransform r original subStates
    | _ => .error .other

def transformed (env : TestEnv T L) (x : Transformed L) : TestEnv T L :=
  { env with
    state := x.state
    folder := env.folder.put env.testCase x.variant
    result := some x.result
    writtenPaths := x.writtenPaths }

/-- The environment after the call of `transform`, and whether `run` goes on after it. -/
def runTransform (env : TestEnv T L) (r : HintReader) (seed : Seed) (original : TestCase) :
    TestEnv T L × Bool :=
  match env.callTransform r seed original with
  | .ok x => (env.transformed x, x.result = .ok)
  | .error .unicodeDecodeError => ({ env with result := some .stop }, false)
  | .error _ => (env, false)

/-- The run of the interestingness test and what follows it. An exception ends it half-way. -/
def runTest (env : TestEnv T L) (test : Folder T → Int × Folder T) (original : TestCase) :
    TestEnv T L :=
  let (exitcode, folder) := test env.folder
  let env := { env with exitcode := some exitcode, folder := folder }
  if exitcode = 0 then
    let env := { env with originalSize := some original.getFileSize }
    match env.variant with
    | none => env
    | some v =>
      { env with
        newSize := some v.getFileSize
        folder := env.folder.put env.testCase (some (v.removeExtraneousFiles env.writtenPaths).1) }
  else env

theorem runTransform_cases {env env' : TestEnv T L}
    (h : env.runTransform r seed original = (env', goesOn)) :
    (∃ x, env.callTransform r seed original = .ok x ∧ env' = env.transformed x ∧
      goesOn = decide (x.result = .ok)) ∨
      goesOn = false ∧ (env' = { env with result := some .stop } ∨ env' = env) := by
  rw [runTransform] at h
  split at h
  · rename_i x hx
    cases h
    exact .inl ⟨x, hx, rfl, rfl⟩
  · cases h
    exact .inr ⟨rfl, .inl rfl⟩
  · cases h
    exact .inr ⟨rfl, .inr rfl⟩

theorem runTest_eq (env : TestEnv T L) (test : Folder T → Int × Folder T) (original : TestCase) :
    ∃ folder originalSize newSize, env.runTest test original = { env with
      exitcode := some (test env.folder).1
      folder := folder
      originalSize := originalSize
      newSize := newSize } := by
  simp only [runTest]
  split
  · split
    · exact ⟨_, _, _, rfl⟩
    · exact ⟨_, _, _, rfl⟩
  · exact ⟨_, _, _, rfl⟩

end

end TestEnv

end Cvise
