import Cvise.Cache
import Cvise.Folding
import Cvise.PassContext
import Cvise.Statistics
import Cvise.TestEnvironment

namespace Cvise
set_option autoImplicit true

variable {T L : Type}

/-- The options of a `TestManager`, and what it finds in its environment. -/
structure Config (T : Type) where
  testCases : List T
  /-- The interestingness test: its exit code, and what it leaves of the test cases in its folder. -/
  test : Folder T → Int × Folder T
  /-- What the directory holds, with all symlinks followed, that a symlink of a test case leads to. -/
  linkedDir : (T → TestCase) → T → RelPath → Option (List (RelPath × Option Bytes)) :=
    fun _ _ _ => none
  sha256 : Bytes → Bytes := id
  parallelTests : Nat := 1
  parallelTests_pos : 0 < parallelTests := by decide
  noCache : Bool := false
  skipKeyOff : Bool := true
  silentPassBug : Bool := false
  dieOnPassBug : Bool := false
  maxImprovement : Option Int := none
  noGiveUp : Bool := false
  skipAfterNTransforms : Option Nat := none

/-- The copy that `copy_test_case` makes of a test case. -/
def diskCopy (cfg : Config T) (disk : T → TestCase) (t : T) : Option TestCase :=
  (disk t).copy (cfg.linkedDir disk t)

def giveupConstant : Nat := 50000
def maxTimeouts : Nat := 20
def maxCrashDirs : Nat := 10
def restartJobInterval : Nat := 100
def maxPassIncreasementThreshold : Nat := 3

inductive Future where
  | pending
  | done
  | cancelled
  | failed (e : PyErr)
deriving DecidableEq

inductive Work (T L : Type) where
  | init (env : InitEnv T L)
  | transform (env : TestEnv T L)

structure Job (T L : Type) where
  order : Nat
  pass : Option (Pass L)
  passId : Option Nat
  passJobCounter : Option Nat
  work : Work T L
  future : Future := .pending
  temporaryFolder : Option DirName

def Job.isTransform (j : Job T L) : Bool :=
  match j.work with
  | .init _ => false
  | .transform _ => true

/-- `SuccessCandidate`, with the test case in its directory. -/
structure SuccessCandidate (L : Type) where
  order : Nat
  pass : Option (Pass L)
  passId : Option Nat
  passState : Option (PassState L)
  sizeDelta : Int
  testCase : TestCase

namespace SuccessCandidate

def isFold (c : SuccessCandidate L) : Bool :=
  match c.passState with
  | some (.foldOut _) => true
  | _ => false

/-- `real_chunk()` of the state, or 1 where it has none. -/
def takenInstanceCount (c : SuccessCandidate L) : Nat :=
  match c.passState with
  | some (.hint s) => s.realChunk
  | some (.foldIn subStates) => (subStates.map (·.realChunk)).sum
  | some (.foldOut s) => (s.subStates.map (·.realChunk)).sum
  | some (.legacy s) => (c.pass.map fun p => p.realChunk s).getD 1
  | none => 1

def comparisonKey (c : SuccessCandidate L) : Int ×ₗ Int ×ₗ Int :=
  let reduction := if c.sizeDelta < 0 then -c.sizeDelta else 0
  toLex (if c.isFold then 0 else 1, toLex (-reduction, -c.takenInstanceCount))

def betterThan (c other : SuccessCandidate L) : Bool := c.comparisonKey < other.comparisonKey

end SuccessCandidate

/-- Where the main process is within `run_passes`. The hint types that come with the loops of
`run_parallel_tests` are its `ready_hint_types`. -/
inductive Phase where
  | idle
  | testCases
  | outer
  | loop (ready : List Bytes)
  | scheduling (ready : List Bytes)
  | restarting (ready : List Bytes)
  | folding (ready : List Bytes)
  | transforming (ready : List Bytes)
  | waiting (ready : List Bytes)
  | completing (ready : List Bytes) (todo : List Nat)
  | batchEnd
  | afterBatch
  | checking (isSuccess : Bool)
  | finished
  | raised (e : PyErr)
deriving DecidableEq

/-- The local variables of `run_passes` and `run_passes_for_test_case`. -/
structure Frame (T L : Type) where
  rest : List T := []
  augmentedPasses : List (Pass L) := []
  startingTestCaseSize : Nat := 0
  successCount : Nat := 0
  hashBeforePass : Option Bytes := none
  readyHintTypes : List Bytes := []

/-- A directory with hints. `source` is not in the source: it remembers the contents of the test
case for which the hints were generated. -/
structure HintDir where
  source : Option TestCase := none
  files : HintFiles := []

/-- `TestManager`, with the files that it works on. -/
structure TestManager (T L : Type) where
  disk : T → TestCase
  dirs : DirName → Option HintDir := fun _ => none
  passContexts : List (PassContext L) := []
  interleaving : Bool := false
  currentTestCase : T
  jobs : List (Job T L) := []
  order : Nat := 1
  currentBatchStartOrder : Nat := 1
  lastRestartJobOrder : Option Nat := none
  successCandidate : Option (SuccessCandidate L) := none
  foldingManager : FoldingManager := {}
  passRestartQueue : List Nat := []
  cache : Cache T := []
  startWithPass : Option Str := none
  skip : Bool := false
  passStatistic : PassStatistic := {}
  crashDirs : Nat := 0
  phase : Phase := .idle
  frame : Frame T L := {}

/-- What one step of the main process gets from its environment. -/
structure Choice where
  /-- The name of the directory that the step makes. -/
  dir : DirName := 0
  rnd : Nat → Nat → Nat := fun _ _ => 0
  fold : FoldChoice := {}
  /-- The jobs that have run for longer than they may. -/
  lost : List Nat := []
  skipKey : Bool := false
  sameMtime : Bool := false

namespace TestManager

/-- The hint files that can be read. -/
def reader (m : TestManager T L) : HintReader where
  read path := (m.dirs path.1).bind fun d => (d.files.find? (·.1 = path.2)).map Prod.snd

def raise (e : PyErr) (m : TestManager T L) : TestManager T L := { m with phase := .raised e }

/-- The state after a part of the main process that may raise. -/
def orRaise (m : TestManager T L) : Except PyErr (TestManager T L) → TestManager T L
  | .ok m' => m'
  | .error e => m.raise e

def createDir (d : DirName) (m : TestManager T L) : TestManager T L :=
  { m with dirs := fun e => if e = d then some {} else m.dirs e }

def deleteDirs (ds : List DirName) (m : TestManager T L) : TestManager T L :=
  { m with dirs := fun e => if e ∈ ds then none else m.dirs e }

def context (i : Nat) (m : TestManager T L) : Except PyErr (PassContext L) :=
  match m.passContexts[i]? with
  | some c => .ok c
  | none => .error .indexError

def setContext (i : Nat) (c : PassContext L) (m : TestManager T L) : TestManager T L :=
  { m with passContexts := m.passContexts.set i c }

/-- `release_job`. No two jobs have the same order. -/
def releaseJob (j : Job T L) (m : TestManager T L) : TestManager T L :=
  { m.deleteDirs j.temporaryFolder.toList with jobs := m.jobs.filter (·.order ≠ j.order) }

def releaseAllJobs (m : TestManager T L) : TestManager T L :=
  { m.deleteDirs (m.jobs.filterMap (·.temporaryFolder)) with jobs := [] }

def removeRoots (m : TestManager T L) : TestManager T L :=
  { m.deleteDirs (m.passContexts.filterMap (·.temporaryRoot)) with
    passContexts := m.passContexts.map fun c => { c with temporaryRoot := none }
    successCandidate := none }

/-- `shouldProceedWithSuccessCandidate`, for the candidate that there is. -/
def shouldProceed (cfg : Config T) (m : TestManager T L) : Bool :=
  !m.interleaving ||
    !FoldingManager.continueAttemptingFolds (m.order - m.currentBatchStartOrder) cfg.parallelTests
      m.passContexts.length

end TestManager

end Cvise
