import Cvise.Scheduling

namespace Cvise
set_option autoImplicit true

variable {T L : Type}

inductive PassCheckingOutcome where
  | accept
  | ignore
  | stop
deriving DecidableEq

/-- Whether the improvement exceeds the limit, if there is one. -/
def TestEnv.tooLarge (env : TestEnv T L) (maxImprovement : Option Int) : Except PyErr Bool :=
  match maxImprovement with
  | none => .ok false
  | some limit => do return decide ((← env.sizeImprovement) > limit)

namespace PassContext

/-- `running_transform_order_to_state.pop(order)`. -/
def popRunning (order : Nat) (c : PassContext L) : Except PyErr (PassContext L) :=
  if c.runningTransformOrderToState.any (·.1 = order) then
    .ok { c with runningTransformOrderToState :=
      c.runningTransformOrderToState.filter (·.1 ≠ order) }
  else .error .keyError

/-- One more timeout, after which the pass may be defunct. -/
def timedOut (c : PassContext L) : PassContext L :=
  { c with
    timeoutCount := c.timeoutCount + 1
    defunct := c.defunct || maxTimeouts ≤ c.timeoutCount + 1 }

/-- The pass has finished its initialization in the directory `root`. -/
def initialized (state : Option (PassState L)) (root : Option DirName) (c : PassContext L) :
    PassContext L :=
  { c with
    stage := .enumerating
    state := state
    temporaryRoot := root
    hintBundlePaths :=
      if c.pass.isHintBased then
        match state with
        | some (.hint s) => s.hintBundlePaths
        | _ => []
      else c.hintBundlePaths }

def accepted (state : Option (PassState L)) (jobCounter : Nat) (c : PassContext L) :
    PassContext L :=
  { c with
    currentBatchSucceededStates := c.currentBatchSucceededStates ++ [state]
    lastSuccessPassJobCounter := max c.lastSuccessPassJobCounter jobCounter }

/-- The state from which the pass goes on after the candidate was taken: that of the earliest check
that has not completed, or the one that the candidate's transform returned if none is earlier. -/
def rewound (c : PassContext L) (cand : SuccessCandidate L) (i : Nat) : Option (PassState L) :=
  let rewindTo := (c.runningTransformOrderToState.map Prod.fst).min?
  if cand.passId = some i ∧ rewindTo.all fun order => cand.order ≤ order then cand.passState
  else
    match rewindTo with
    | some order =>
      (c.runningTransformOrderToState.find? (·.1 = order)).map Prod.snd
    | none => c.state

/-- The part of `process_result` about one pass, among the other ones. -/
def afterResult (c : PassContext L) (cand : SuccessCandidate L) (i : Nat)
    (others : List (PassContext L)) : PassContext L :=
  let c := { c with
    state := c.rewound cand i
    runningTransformOrderToState := []
    takenSucceededState := if cand.passId = some i then cand.passState else none }
  { c with
    stage := if c.shouldReinitAfterTestCaseUpdate others then .beforeInit else c.stage }

end PassContext

/-- `process_result` for all passes. There contexts are compared by value. Two equal ones are of one
pass, and no pass takes its own outputs, so neither is the reason to initialize the other. -/
def contextsAfterResult (cand : SuccessCandidate L) (contexts : List (PassContext L)) :
    List (PassContext L) :=
  contexts.mapIdx fun i c => c.afterResult cand i (contexts.eraseIdx i)

namespace TestManager

/-- `report_pass_bug`: whether a directory for the report was made. `dump` fails for test cases that
are missing or directories. -/
def reportPassBug (cfg : Config T) (env : TestEnv T L) (m : TestManager T L) :
    Except PyErr (Bool × TestManager T L) :=
  if m.crashDirs > maxCrashDirs then .ok (false, m)
  else if cfg.testCases.all fun t => (env.folder t).any fun tc => !tc.isDir then
    if cfg.dieOnPassBug then .error .passBugError
    else .ok (true, { m with crashDirs := m.crashDirs + 1 })
  else .error .osError

/-- The end of `check_pass_result`, for a result that is not a success. -/
def giveUp (cfg : Config T) (j : Job T L) (env : TestEnv T L) (m : TestManager T L) :
    Except PyErr (PassCheckingOutcome × TestManager T L) :=
  match j.passId with
  | none => .ok (.ignore, m)
  | some i =>
    if cfg.noGiveUp then .ok (.ignore, m)
    else do
      let c ← m.context i
      if !c.defunct ∧ giveupConstant < c.jobsSinceLastSuccess then
        let (_, m) ← m.reportPassBug cfg env
        return (.stop, m.setContext i { c with defunct := true })
      else return (.ignore, m)

def checkPassResult (cfg : Config T) (sameMtime : Bool) (j : Job T L) (env : TestEnv T L)
    (m : TestManager T L) : Except PyErr (PassCheckingOutcome × TestManager T L) :=
  if env.success then do
    let tooLarge ← env.tooLarge cfg.maxImprovement
    if tooLarge then return (.ignore, m)
    else
      match env.variant with
      | none => .error .fileNotFoundError
      | some v =>
        -- Report a bug if the transform did not change the file.
        if TestCase.filecmpCmp sameMtime (m.disk m.currentTestCase) v then
          if cfg.silentPassBug then return (.ignore, m)
          else
            let (made, m) ← m.reportPassBug cfg env
            return (if made then .ignore else .stop, m)
        else return (.accept, m)
  else
    match env.result with
    | some .ok => if env.exitcode.isSome then m.giveUp cfg j env else .error .assertionError
    | some .stop => .ok (.stop, m)
    | some .error =>
      if cfg.silentPassBug then m.giveUp cfg j env
      else do
        let (_, m) ← m.reportPassBug cfg env
        return (.stop, m)
    | some .invalid => m.giveUp cfg j env
    | none => m.giveUp cfg j env

def maybeUpdateSuccessCandidate (j : Job T L) (env : TestEnv T L) (m : TestManager T L) :
    Except PyErr (TestManager T L) := do
  let improvement ← env.sizeImprovement
  match env.variant with
  | none => .error .fileNotFoundError
  | some v =>
    let new : SuccessCandidate L := {
      order := j.order
      pass := j.pass
      passId := j.passId
      passState := env.state
      sizeDelta := -improvement
      testCase := v }
    if m.successCandidate.all new.betterThan then
      return { m with successCandidate := some new }
    else return m

/-- The job's entry is popped from the running transforms of its pass, if it has one. -/
def popRunning (j : Job T L) (m : TestManager T L) : Except PyErr (TestManager T L) :=
  match j.passId with
  | none => .ok m
  | some i =>
    if j.isTransform then do
      let c ← m.context i
      let c ← c.popRunning j.order
      return m.setContext i c
    else .ok m

/-- `handle_timed_out_job`. The pass of a fold is never disabled. -/
def handleTimedOutJob (j : Job T L) (m : TestManager T L) : Except PyErr (TestManager T L) := do
  let m := { m with passStatistic := m.passStatistic.addAborted j.pass j.isTransform }
  let m ← m.popRunning j
  match j.passId with
  | none => return m.releaseJob j
  | some i =>
    let c ← m.context i
    return (m.setContext i c.timedOut).releaseJob j

/-- `handle_finished_init_job`. The job's folder becomes the root of the pass. -/
def handleFinishedInitJob (j : Job T L) (env : InitEnv T L) (m : TestManager T L) :
    Except PyErr (TestManager T L) :=
  match j.passId with
  | none => .error .assertionError
  | some i => do
    let c ← m.context i
    if c.stage = .inInit then
      let m := m.deleteDirs c.temporaryRoot.toList
      let m := { m with passStatistic := m.passStatistic.addInitialized j.pass }
      return (m.setContext i (c.initialized env.result j.temporaryFolder)).releaseJob
        { j with temporaryFolder := none }
    else .error .assertionError

/-- What follows the check of a transform job, depending on its outcome. -/
def finishTransform (outcome : PassCheckingOutcome) (j : Job T L) (env : TestEnv T L)
    (m : TestManager T L) : Except PyErr (TestManager T L) :=
  match outcome with
  | .stop =>
    match j.passId with
    | none => .error .assertionError
    | some i => do
      let c ← m.context i
      return { m.setContext i { c with state := none } with
        passStatistic := m.passStatistic.addFailure j.pass }
  | .ignore =>
    .ok { m with
      passStatistic := m.passStatistic.addFailure j.pass
      foldingManager :=
        if m.interleaving then m.foldingManager.onTransformJobFailure env.state
        else m.foldingManager }
  | .accept => do
    let m := { m with passStatistic := m.passStatistic.addSuccess j.pass }
    let m ← m.maybeUpdateSuccessCandidate j env
    let m := { m with
      foldingManager :=
        if m.interleaving then m.foldingManager.onTransformJobSuccess env.state
        else m.foldingManager }
    match j.passId, j.passJobCounter with
    | none, _ => return m
    | some _, none => .error .assertionError
    | some i, some counter =>
      let c ← m.context i
      return m.setContext i (c.accepted env.state counter)

def handleFinishedTransformJob (cfg : Config T) (sameMtime : Bool) (j : Job T L)
    (env : TestEnv T L) (m : TestManager T L) : Except PyErr (TestManager T L) := do
  let m := { m with passStatistic := m.passStatistic.addExecuted j.pass }
  let m ← m.popRunning j
  let (outcome, m) ← m.checkPassResult cfg sameMtime j env
  let m ← m.finishTransform outcome j env
  return m.releaseJob j

/-- One round of `process_done_futures`. The job is released here and not after the last round:
nothing looks at it in between. -/
def processJob (cfg : Config T) (sameMtime : Bool) (j : Job T L) (m : TestManager T L) :
    Except PyErr (TestManager T L) :=
  match j.future with
  | .pending => .ok m
  | .cancelled => m.handleTimedOutJob j
  | .failed e => if e = .timeoutError then m.handleTimedOutJob j else .error e
  | .done =>
    match j.work with
    | .init env => m.handleFinishedInitJob j env
    | .transform env => m.handleFinishedTransformJob cfg sameMtime j env

end TestManager

end Cvise
