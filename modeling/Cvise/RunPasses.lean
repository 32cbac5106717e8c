import Cvise.Completion
import Cvise.Transition

namespace Cvise
set_option autoImplicit true

variable {T L : Type}

/-- A pass of a `run_passes` call, with what `create_subordinate_passes` returns for it. -/
structure ScheduledPass (L : Type) where
  pass : Pass L
  subordinatePasses : List (Pass L) := []

/-- The arguments of `run_passes`, and the test cases in the order that `sorted_test_cases` gives. -/
structure Call (T L : Type) where
  passes : List (ScheduledPass L)
  interleaving : Bool
  sortedTestCases : List T

def Call.augmentedPasses (call : Call T L) : List (Pass L) :=
  call.passes.flatMap (·.subordinatePasses) ++ call.passes.map (·.pass)

namespace PassContext

/-- Forgets the jobs of the last batch. Unfinished initializations will have to be restarted. -/
def atBatchStart (c : PassContext L) : PassContext L :=
  { c with
    runningTransformOrderToState := []
    currentBatchSucceededStates := []
    currentBatchStartJobCounter := c.passJobCounter
    stage := if c.stage = .inInit then .beforeInit else c.stage }

/-- A new context, enabled unless the test case is a directory that the pass does not support. -/
def createFor (isDir : Bool) (p : Pass L) : PassContext L :=
  { create p with enabled := !isDir || p.supportsDirTestCases }

end PassContext

/-- The passes that become eligible for restart at the start of a batch. -/
def restartable (contexts : List (PassContext L)) (queue : List Nat) : List Nat :=
  (List.range contexts.length).filter fun i =>
    i ∉ queue ∧ contexts[i]?.any (·.canScheduleForRestart)

namespace TestManager

/-- `run_passes` after the test of `start_with_pass`, up to its loop over the test cases. -/
def startRun (cfg : Config T) (call : Call T L) (startWithPass : Option Str)
    (m : TestManager T L) : TestManager T L :=
  if (cfg.testCases.map fun t => (m.disk t).getFileSize).sum = 0 then m.raise .zeroSizeError
  else
    { m with
      interleaving := call.interleaving
      startWithPass := startWithPass
      phase := .testCases
      frame := { rest := call.sortedTestCases, augmentedPasses := call.augmentedPasses } }

/-- `run_passes`, which asserts that it interleaves unless there is one pass. -/
def runPasses (cfg : Config T) (call : Call T L) (m : TestManager T L) : TestManager T L :=
  if call.augmentedPasses.length = 1 ∨ call.interleaving then
    match m.startWithPass with
    | none => m.startRun cfg call none
    | some [] => m.startRun cfg call (some [])
    | some name =>
      if name ∈ m.passContexts.map (·.pass.repr) then m.startRun cfg call none else m
  else m.raise .assertionError

/-- `run_passes_for_test_case` up to its loop, for the test case `t` that is not empty. -/
def openTestCase [DecidableEq T] (cfg : Config T) (t : T) (m : TestManager T L) :
    TestManager T L :=
  let hash := if cfg.noCache then none else some (hashTestCase cfg.sha256 (m.disk t))
  let m := { m with
    lastRestartJobOrder := none
    passRestartQueue := []
    passContexts := m.frame.augmentedPasses.map .create
    jobs := [] }
  match hash.bind (m.cache.lookup m.frame.augmentedPasses) with
  | some item => { m with disk := fun u => if u = t then item.contents else m.disk u }
  | none =>
    let contexts := m.frame.augmentedPasses.map (.createFor (m.disk t).isDir)
    { m with
      passContexts := contexts
      skip := false
      phase := .outer
      frame := { m.frame with
        startingTestCaseSize := (m.disk t).getFileSize
        successCount := 0
        hashBeforePass := hash
        readyHintTypes := getFullyInitializedHintTypes contexts } }

/-- One round of the loop over the test cases. -/
def nextTestCase [DecidableEq T] (cfg : Config T) (m : TestManager T L) : TestManager T L :=
  match m.frame.rest with
  | [] => { m.removeRoots with phase := .idle }
  | t :: rest =>
    let m := { m with currentTestCase := t, frame := { m.frame with rest := rest } }
    if (m.disk t).getFileSize = 0 then m else m.openTestCase cfg t

/-- `run_parallel_tests` up to its loop. -/
def startBatch (m : TestManager T L) : TestManager T L :=
  if m.jobs.isEmpty ∧ m.successCandidate.isNone then
    let contexts := m.passContexts.map (·.atBatchStart)
    { m with
      currentBatchStartOrder := m.order
      foldingManager := if m.interleaving then {} else m.foldingManager
      passContexts := contexts
      passRestartQueue :=
        if m.interleaving then m.passRestartQueue ++ restartable contexts m.passRestartQueue
        else m.passRestartQueue
      phase := .loop (getFullyInitializedHintTypes contexts) }
  else m.raise .assertionError

/-- The loop of `run_passes_for_test_case`, up to the call of `run_parallel_tests`. -/
def outerLoop (cfg : Config T) (ch : Choice) (m : TestManager T L) : TestManager T L :=
  if m.passContexts.any (·.canStartJobNow m.frame.readyHintTypes) ∧ !m.skip then
    startBatch { m with skip := ch.skipKey ∧ !cfg.skipKeyOff }
  else { m with phase := .finished }

/-- The test of the loop in `run_parallel_tests`. -/
def loopTest (ready : List Bytes) (m : TestManager T L) : TestManager T L :=
  if !m.jobs.isEmpty ∨ m.passContexts.any (·.canStartJobNow ready) then
    { m with phase := .scheduling ready }
  else { m with phase := .batchEnd }

/-- `workaround_missing_timeouts`, after the wait for results. -/
def cancelLost (ch : Choice) (ready : List Bytes) (m : TestManager T L) : TestManager T L :=
  let jobs := m.jobs.map fun j =>
    if j.order ∈ ch.lost ∧ j.future = .pending then { j with future := .cancelled } else j
  { m with jobs := jobs, phase := .completing ready (jobs.map (·.order)) }

/-- A round of `process_done_futures`, or what follows its last one. -/
def completeStep (cfg : Config T) (ch : Choice) (ready : List Bytes) (todo : List Nat)
    (m : TestManager T L) : TestManager T L :=
  match todo with
  | [] =>
    if m.successCandidate.isSome ∧ m.shouldProceed cfg then { m with phase := .batchEnd }
    else { m with phase := .loop ready }
  | order :: todo =>
    let m := { m with phase := .completing ready todo }
    match m.jobs.find? (·.order = order) with
    | none => m
    | some j => m.orRaise (m.processJob cfg ch.sameMtime j)

def endBatch (m : TestManager T L) : TestManager T L :=
  let stat := m.jobs.foldl (fun s j => s.addAborted j.pass j.isTransform) m.passStatistic
  { m.releaseAllJobs with passStatistic := stat, phase := .afterBatch }

/-- The statistics of the sub-states of a fold. -/
def commitStatistics (cand : SuccessCandidate L) (s : PassStatistic) :
    Except PyErr PassStatistic :=
  match cand.passState with
  | some (.foldOut fold) => do
    let s ← s.addCommittedSuccess cand.sizeDelta none
    fold.sizeDeltaPerPass.foldlM (fun s e => s.addCommittedSuccess e.2 (some e.1)) s
  | _ =>
    match cand.pass with
    | some p => s.addCommittedSuccess cand.sizeDelta (some p.userVisibleName)
    | none => .error .other

def processResult [DecidableEq T] (cand : SuccessCandidate L) (m : TestManager T L) :
    TestManager T L :=
  let m := { m with disk := fun u => if u = m.currentTestCase then cand.testCase else m.disk u }
  match commitStatistics cand m.passStatistic with
  | .error e => m.raise e
  | .ok stat =>
    { m with
      passStatistic := stat
      passContexts := contextsAfterResult cand m.passContexts
      successCandidate := none
      frame := { m.frame with successCount := m.frame.successCount + 1 }
      phase := .checking true }

/-- What follows `run_parallel_tests` in its caller's loop. -/
def afterBatch [DecidableEq T] (m : TestManager T L) : TestManager T L :=
  match m.successCandidate with
  | none => { m with phase := .checking false }
  | some cand => m.processResult cand

/-- Whether a limit on the number of successful transformations is reached; zero is no limit. -/
def limitReached (limit : Option Nat) (successCount : Nat) : Bool :=
  limit.any fun n => n ≠ 0 ∧ n ≤ successCount

/-- The end of a round of the loop in `run_passes_for_test_case`. -/
def checkProgress (cfg : Config T) (isSuccess : Bool) (m : TestManager T L) : TestManager T L :=
  let size := (m.disk m.currentTestCase).getFileSize
  if size ≥ maxPassIncreasementThreshold * m.frame.startingTestCaseSize ∨ !isSuccess then
    { m with phase := .finished }
  else if !m.interleaving ∧ m.passContexts.length ≠ 1 then m.raise .assertionError
  else if limitReached cfg.skipAfterNTransforms m.frame.successCount ∨
      (!m.interleaving ∧ m.passContexts.any fun c =>
        limitReached c.pass.maxTransforms m.frame.successCount) then
    { m with phase := .finished }
  else { m with phase := .outer }

/-- The end of `run_passes_for_test_case`, where a copy of the test case goes to the cache. -/
def finishTestCase (cfg : Config T) (m : TestManager T L) : TestManager T L :=
  match m.frame.hashBeforePass with
  | none => { m with phase := .testCases }
  | some hash =>
    match diskCopy cfg m.disk m.currentTestCase with
    | none => m.raise .osError
    | some tc =>
      { m with
        cache := m.cache.add m.frame.augmentedPasses hash { contents := tc, testCases := m.disk }
        phase := .testCases }

/-- A step of the main process within `run_passes`. -/
def mainStep [DecidableEq T] (cfg : Config T) (ch : Choice) (m : TestManager T L) :
    Option (TestManager T L) :=
  match m.phase with
  | .idle => none
  | .testCases => some (m.nextTestCase cfg)
  | .outer => some (m.outerLoop cfg ch)
  | .loop ready => some (m.loopTest ready)
  | .scheduling ready => m.initStep cfg ch ready
  | .restarting ready => m.restartStep ch ready
  | .folding ready => m.foldStep ch ready
  | .transforming ready => m.transformStep ch ready
  | .waiting ready => some (m.cancelLost ch ready)
  | .completing ready todo => some (m.completeStep cfg ch ready todo)
  | .batchEnd => some m.endBatch
  | .afterBatch => some m.afterBatch
  | .checking isSuccess => some (m.checkProgress cfg isSuccess)
  | .finished => some (m.finishTestCase cfg)
  | .raised _ => none

end TestManager

end Cvise
