import Cvise.Manager

namespace Cvise
set_option autoImplicit true

variable {T L : Type}

/-- The bundles of these types that initialized passes hold. -/
def dependeeBundlePaths (contexts : List (PassContext L)) (dependeeTypes : List Bytes) :
    List HintPath :=
  contexts.flatMap fun other =>
    if other.pass.isHintBased ∧ other.stage = .enumerating then
      (other.hintBundlePaths.filter (·.1 ∈ dependeeTypes)).map Prod.snd
    else []

/-- Initialize the pass from scratch, or advance from the previous state. -/
def PassContext.initMethod (c : PassContext L) : InitMethod L :=
  match c.state with
  | none => .new
  | some s => .advanceOnSuccess s c.takenSucceededState

/-- The first pass that can be initialized. -/
def findInit (contexts : List (PassContext L)) (ready : List Bytes) :
    Option (PassContext L × Nat) :=
  contexts.zipIdx.find? fun e => e.1.canInitNow ready

/-- `advance_while_subset_of_succeeded` for each pass that can transform. -/
def skipSubsets (rnd : Nat → Nat → Nat) (contexts : List (PassContext L)) :
    List (PassContext L) :=
  contexts.mapIdx fun i c =>
    if c.canTransformNow then c.advanceWhileSubsetOfSucceeded (rnd i) else c

/-- The better of two passes to transform with: the one with fewer jobs in this batch. -/
def fewerJobs (best : Option (PassContext L × Nat)) (e : PassContext L × Nat) :
    Option (PassContext L × Nat) :=
  if e.1.canTransformNow then
    match best with
    | some b => if b.1.jobsInCurrentBatch ≤ e.1.jobsInCurrentBatch then some b else some e
    | none => some e
  else best

def pickTransform (contexts : List (PassContext L)) : Option (PassContext L × Nat) :=
  contexts.zipIdx.foldl fewerJobs none

theorem findInit_some {contexts : List (PassContext L)} (h : findInit contexts ready = some (c, i)) :
    contexts[i]? = some c ∧ c.canInitNow ready := by
  have hcan := List.find?_some (p := fun e : PassContext L × Nat => e.1.canInitNow ready) h
  exact ⟨List.mem_zipIdx_iff_getElem?.1 (List.mem_of_find?_eq_some h), hcan⟩

theorem findInit_none {contexts : List (PassContext L)} (h : findInit contexts ready = none) :
    ∀ c ∈ contexts, ¬ c.canInitNow ready := by
  intro c hc
  obtain ⟨i, hi⟩ := List.mem_iff_getElem?.1 hc
  exact List.find?_eq_none.1 h (c, i) (List.mem_zipIdx_iff_getElem?.2 hi)

theorem fewerJobs_cases (best : Option (PassContext L × Nat)) (e : PassContext L × Nat) :
    (fewerJobs best e = best ∧ (best = none → ¬ e.1.canTransformNow)) ∨
      fewerJobs best e = some e ∧ e.1.canTransformNow := by
  unfold fewerJobs
  split
  · rename_i hcan
    split
    · split
      · exact .inl ⟨rfl, nofun⟩
      · exact .inr ⟨rfl, hcan⟩
    · exact .inr ⟨rfl, hcan⟩
  · rename_i hcan
    exact .inl ⟨rfl, fun _ => hcan⟩

theorem foldl_fewerJobs_some {es : List (PassContext L × Nat)}
    (h : es.foldl fewerJobs best = some e) : best = some e ∨ e ∈ es ∧ e.1.canTransformNow := by
  induction es generalizing best with
  | nil => exact .inl h
  | cons a es ih =>
    rcases ih h with hbest | ⟨he, hcan⟩
    · rcases fewerJobs_cases best a with ⟨heq, _⟩ | ⟨heq, hcan⟩
      · exact .inl (heq ▸ hbest)
      · cases heq.symm.trans hbest
        exact .inr ⟨List.mem_cons_self, hcan⟩
    · exact .inr ⟨List.mem_cons_of_mem _ he, hcan⟩

theorem foldl_fewerJobs_none {es : List (PassContext L × Nat)}
    (h : es.foldl fewerJobs best = none) : best = none ∧ ∀ e ∈ es, ¬ e.1.canTransformNow := by
  induction es generalizing best with
  | nil => exact ⟨h, by simp⟩
  | cons a es ih =>
    obtain ⟨hbest, hes⟩ := ih h
    rcases fewerJobs_cases best a with ⟨heq, hcan⟩ | ⟨heq, _⟩
    · have hbest := heq.symm.trans hbest
      exact ⟨hbest, List.forall_mem_cons.2 ⟨hcan hbest, hes⟩⟩
    · cases heq.symm.trans hbest

theorem pickTransform_some {contexts : List (PassContext L)}
    (h : pickTransform contexts = some (c, i)) : contexts[i]? = some c ∧ c.canTransformNow := by
  rcases foldl_fewerJobs_some h with h | ⟨hmem, hcan⟩
  · cases h
  · exact ⟨List.mem_zipIdx_iff_getElem?.1 hmem, hcan⟩

theorem pickTransform_none {contexts : List (PassContext L)}
    (h : pickTransform contexts = none) : ∀ c ∈ contexts, ¬ c.canTransformNow := by
  intro c hc
  obtain ⟨i, hi⟩ := List.mem_iff_getElem?.1 hc
  exact (foldl_fewerJobs_none h).2 (c, i) (List.mem_zipIdx_iff_getElem?.2 hi)

namespace TestManager

/-- `schedule_init` of the pass `c` with the number `i`, in the new directory `tmpDir`. -/
def scheduleInit (i : Nat) (c : PassContext L) (tmpDir : DirName) (m : TestManager T L) :
    TestManager T L :=
  { m.createDir tmpDir with
    jobs := m.jobs ++ [
      { order := m.order
        pass := some c.pass
        passId := some i
        passJobCounter := some c.passJobCounter
        work := .init
          { method := c.initMethod
            pass := c.pass
            testCase := m.currentTestCase
            tmpDir := tmpDir
            dependeeBundlePaths := dependeeBundlePaths m.passContexts c.pass.inputHintTypes }
        temporaryFolder := some tmpDir }]
    passContexts := m.passContexts.set i
      { c with passJobCounter := c.passJobCounter + 1, stage := .inInit }
    order := m.order + 1 }

/-- The context after a transform job was scheduled with its state. -/
def scheduledTransform (c : PassContext L) (order : Nat) (s : PassState L)
    (next : Option (PassState L)) : PassContext L :=
  { c with
    runningTransformOrderToState := c.runningTransformOrderToState ++ [(order, s)]
    passJobCounter := c.passJobCounter + 1
    state := next }

/-- `schedule_transform`. The state is advanced in the main process, after the job was started. -/
def scheduleTransform (i : Nat) (c : PassContext L) (s : PassState L) (folder : DirName)
    (rnd : Nat) (m : TestManager T L) : Except PyErr (TestManager T L) :=
  if c.temporaryRoot.isNone then .error .assertionError
  else do
    let next ← c.pass.advance rnd (m.disk m.currentTestCase) s
    return { m.createDir folder with
      jobs := m.jobs ++ [
        { order := m.order
          pass := some c.pass
          passId := some i
          passJobCounter := some c.passJobCounter
          work := .transform
            { state := some s
              testCase := m.currentTestCase
              shouldCopyCurrentTestCase := !c.pass.isHintBased
              pass := some c.pass }
          temporaryFolder := some folder }]
      passContexts := m.passContexts.set i (scheduledTransform c m.order s next)
      order := m.order + 1 }

def scheduleFold (subStates : List HintState) (folder : DirName) (m : TestManager T L) :
    TestManager T L :=
  { m.createDir folder with
    jobs := m.jobs ++ [
      { order := m.order
        pass := none
        passId := none
        passJobCounter := none
        work := .transform
          { state := some (.foldIn subStates)
            testCase := m.currentTestCase
            shouldCopyCurrentTestCase := false
            pass := none }
        temporaryFolder := some folder }]
    order := m.order + 1 }

/-- What comes after the loop that schedules jobs: there is nothing to wait for without jobs. -/
def endScheduling (ready : List Bytes) (m : TestManager T L) : TestManager T L :=
  { m with phase := if m.jobs.isEmpty then .batchEnd else .waiting ready }

/-- The test of the loop that schedules jobs, and the first step of `maybe_schedule_job`: a pass is
initialized regularly. Here and below a new directory must have a name that is not in use. -/
def initStep (cfg : Config T) (ch : Choice) (ready : List Bytes) (m : TestManager T L) :
    Option (TestManager T L) :=
  if cfg.parallelTests ≤ m.jobs.length then some (m.endScheduling ready)
  else
    match findInit m.passContexts (getFullyInitializedHintTypes m.passContexts) with
    | none => some { m with phase := .restarting ready }
    | some (c, i) => if (m.dirs ch.dir).isNone then some (m.scheduleInit i c ch.dir) else none

/-- Whether a restart is not throttled. -/
def restartDue (m : TestManager T L) : Bool :=
  match m.lastRestartJobOrder with
  | none => true
  | some last => restartJobInterval ≤ m.order - last

/-- The second step: a previously finished pass is restarted. -/
def restartStep (ch : Choice) (ready : List Bytes) (m : TestManager T L) :
    Option (TestManager T L) :=
  match m.passRestartQueue with
  | [] => some { m with phase := .folding ready }
  | i :: queue =>
    if m.restartDue then
      match m.passContexts[i]? with
      | none => some (m.raise .indexError)
      | some c =>
        if c.stage = .enumerating ∧ c.state.isNone then
          let restarted := { c with stage := .beforeInit }
          let m' := { m with
            passRestartQueue := queue
            passContexts := m.passContexts.set i restarted
            phase := .folding ready }
          if restarted.canInitNow (getFullyInitializedHintTypes m.passContexts) then
            if (m.dirs ch.dir).isNone then
              some { m'.scheduleInit i restarted ch.dir with
                lastRestartJobOrder := some m.order, phase := .scheduling ready }
            else none
          else some m'
        else some (m.raise .assertionError)
    else some { m with phase := .folding ready }

/-- The third step: previously discovered successful transformations are folded. -/
def foldStep (ch : Choice) (ready : List Bytes) (m : TestManager T L) :
    Option (TestManager T L) :=
  if m.interleaving then
    let (foldingState, fm) := m.foldingManager.maybePrepareFoldingJob
      (m.order - m.currentBatchStartOrder) (m.successCandidate.bind (·.passState)) ch.fold
    match foldingState with
    | some subStates =>
      if (m.dirs ch.dir).isNone then
        some { m.scheduleFold subStates ch.dir with foldingManager := fm, phase := .scheduling ready }
      else none
    | none => some { m with foldingManager := fm, phase := .transforming ready }
  else some { m with phase := .transforming ready }

/-- The fourth step: a transformation is attempted in the round-robin fashion. -/
def transformStep (ch : Choice) (ready : List Bytes) (m : TestManager T L) :
    Option (TestManager T L) :=
  let m' := { m with passContexts := skipSubsets ch.rnd m.passContexts }
  match pickTransform m'.passContexts with
  | none => some (m'.endScheduling ready)
  | some (c, i) =>
    match c.state with
    | none => some (m'.raise .assertionError)
    | some s =>
      if (m.dirs ch.dir).isNone then
        some (m'.orRaise ((m'.scheduleTransform i c s ch.dir (ch.rnd m.passContexts.length 0)).map
          fun m'' => { m'' with phase := .scheduling ready }))
      else none

end TestManager

end Cvise
