import Cvise.Execution

namespace Cvise
set_option autoImplicit true

variable {T L : Type}

/-- The part of `run_passes` that a phase belongs to. -/
inductive Kind where
  | outside
  | between
  | batch
  | after
  | failed
deriving DecidableEq

def Phase.kind : Phase → Kind
  | .idle => .outside
  | .testCases => .outside
  | .outer => .between
  | .checking _ => .between
  | .finished => .between
  | .afterBatch => .after
  | .raised _ => .failed
  | _ => .batch

/-- No exception has ended `run_passes`. -/
def TestManager.Alive (m : TestManager T L) : Prop := m.phase.kind ≠ .failed

instance (m : TestManager T L) : Decidable m.Alive := inferInstanceAs (Decidable (_ ≠ _))

/-- The contexts after a change of the one with this number, if the job has one. -/
def modifyAt (i : Option Nat) (f : PassContext L → PassContext L)
    (contexts : List (PassContext L)) : List (PassContext L) :=
  match i with
  | none => contexts
  | some i => contexts.modify i f

def PassContext.dropRunning (order : Nat) (c : PassContext L) : PassContext L :=
  { c with runningTransformOrderToState :=
      c.runningTransformOrderToState.filter (·.1 ≠ order) }

/-- What a worker does with its job, other than to initialize a pass. -/
inductive JobStep [DecidableEq T] (cfg : Config T) (m : TestManager T L) (e : Event T L) :
    Job T L → Job T L → Prop
  | copy (hwork : j.work = .transform env) (ht : t ∈ cfg.testCases) (hcopies : env.copies t)
      (hresult : env.result = none) (hcopied : diskCopy cfg m.disk t = some tc) :
      JobStep cfg m e j { j with work := .transform (env.copy t tc) }
  | transform (hwork : j.work = .transform env) (hresult : env.result = none)
      (hcopied : ∀ t ∈ cfg.testCases, env.copies t → env.folder t ≠ none)
      (hrun : env.runTransform m.reader seed (m.disk env.testCase) = (env', goesOn))
      (he : e = .transform j.order seed) : JobStep cfg m e j
        { j with work := .transform env', future := if goesOn then .pending else .done }
  | test (hwork : j.work = .transform env) (hresult : env.result = some .ok)
      (hexit : env.exitcode = none) :
      JobStep cfg m e j
        { j with work := .transform (env.runTest cfg.test (m.disk env.testCase)), future := .done }
  | ended (hfuture : future = .done → j.isTransform) : JobStep cfg m e j { j with future := future }

/-- The next test case is replaced by what the cache holds for it. -/
structure CacheHit (cfg : Config T) (m : TestManager T L) (t : T) (item : CacheItem T) : Prop where
  phase : m.phase = .testCases
  next : m.frame.rest.head? = some t
  nonempty : (m.disk t).getFileSize ≠ 0
  enabled : cfg.noCache = false
  found : m.cache.lookup m.frame.augmentedPasses (hashTestCase cfg.sha256 (m.disk t)) = some item

/-- Whether the step finishes the job and `check_pass_result` accepts its result. -/
def TestManager.accepts [DecidableEq T] (cfg : Config T) (m : TestManager T L) (e : Event T L)
    (j : Job T L) : Bool :=
  match e, m.phase, j.future, j.work with
  | .main ch, .completing _ (order :: _), .done, .transform env =>
    match m.checkPassResult cfg ch.sameMtime j env with
    | .ok (.accept, _) => order = j.order
    | _ => false
  | _, _, _, _ => false

/-- Whether the step finishes the job and `check_pass_result` stops its pass. -/
def TestManager.stops [DecidableEq T] (cfg : Config T) (m : TestManager T L) (e : Event T L)
    (j : Job T L) : Bool :=
  match e, j.future, j.work with
  | .main ch, .done, .transform env =>
    match m.checkPassResult cfg ch.sameMtime j env with
    | .ok (.stop, _) => true
    | _ => false
  | _, _, _ => false

/-- The steps that do not end `run_passes` with an exception. -/
inductive Move [DecidableEq T] (cfg : Config T) (m : TestManager T L) :
    Event T L → TestManager T L → Prop
  | control (hp : p.kind = m.phase.kind) (houter : p = .outer → m.phase = .checking true)
      (hchecking : ∀ b, p = .checking b → m.phase = p) : Move cfg m e { m with phase := p }
  | noCandidate (hp : m.phase = .afterBatch) (hcand : m.successCandidate = none) :
      Move cfg m e { m with phase := .checking false }
  | call (hp : m.phase = .idle) (hrest : f.rest ⊆ cfg.testCases) : Move cfg m e
      { m with interleaving := b, startWithPass := s, phase := .testCases, frame := f }
  | skipEmpty (hp : m.phase = .testCases) (hrest : m.frame.rest = t :: f.rest) : Move cfg m e
      { m with currentTestCase := t, frame := f }
  | cacheHit (hhit : CacheHit cfg m t i) (hrest : m.frame.rest = t :: f.rest) : Move cfg m e
      { m with
        currentTestCase := t
        lastRestartJobOrder := none
        passRestartQueue := []
        passContexts := m.frame.augmentedPasses.map .create
        jobs := []
        disk := fun u => if u = t then i.contents else m.disk u
        frame := f }
  | openTestCase (hp : m.phase = .testCases) (hrest : m.frame.rest = t :: f.rest) : Move cfg m e
      { m with
        currentTestCase := t
        lastRestartJobOrder := none
        passRestartQueue := []
        passContexts := m.frame.augmentedPasses.map (.createFor isDir)
        jobs := []
        skip := false
        phase := .outer
        frame := f }
  | close (hp : m.phase = .testCases) : Move cfg m e { m.removeRoots with phase := .idle }
  | startBatch (hp : m.phase = .outer) : Move cfg m e
      { m with
        skip := skip
        currentBatchStartOrder := m.order
        foldingManager := if m.interleaving then {} else m.foldingManager
        passContexts := m.passContexts.map (·.atBatchStart)
        passRestartQueue :=
          if m.interleaving then m.passRestartQueue ++
            restartable (m.passContexts.map (·.atBatchStart)) m.passRestartQueue
          else m.passRestartQueue
        phase := .loop ready }
  | init (hp : m.phase = .scheduling ready) (hc : m.passContexts[i]? = some c)
      (hcan : c.canInitNow (getFullyInitializedHintTypes m.passContexts))
      (hd : m.dirs d = none) : Move cfg m e (m.scheduleInit i c d)
  | restart (hp : m.phase = .restarting ready) (hq : m.passRestartQueue = i :: queue)
      (hc : m.passContexts[i]? = some c) (hstage : c.stage = .enumerating) (hstate : c.state = none)
      (hcan : PassContext.canInitNow { c with stage := .beforeInit }
        (getFullyInitializedHintTypes m.passContexts))
      (hd : m.dirs d = none) : Move cfg m e
      { (TestManager.scheduleInit i { c with stage := .beforeInit } d
          { m with
            passRestartQueue := queue
            passContexts := m.passContexts.set i { c with stage := .beforeInit }
            phase := .folding ready }) with
        lastRestartJobOrder := some m.order, phase := .scheduling ready }
  | pop (hp : m.phase = .restarting ready) (hq : m.passRestartQueue = i :: queue)
      (hc : m.passContexts[i]? = some c) (hstage : c.stage = .enumerating)
      (hstate : c.state = none) : Move cfg m e
      { m with
        passRestartQueue := queue
        passContexts := m.passContexts.set i { c with stage := .beforeInit }
        phase := .folding ready }
  | noFold (hp : m.phase = .folding ready)
      (hfm : fm.foldingCandidates = m.foldingManager.foldingCandidates) : Move cfg m e
      { m with foldingManager := fm, phase := .transforming ready }
  | fold (hp : m.phase = .folding ready) (hinterleaving : m.interleaving)
      (hprepare : m.foldingManager.maybePrepareFoldingJob (m.order - m.currentBatchStartOrder)
        (m.successCandidate.bind (·.passState)) choice = (some subStates, fm))
      (hd : m.dirs d = none) : Move cfg m e
      { m.scheduleFold subStates d with foldingManager := fm, phase := .scheduling ready }
  | noTransform (hp : m.phase = .transforming ready) (hkind : p.kind = .batch) : Move cfg m e
      { m with passContexts := skipSubsets rnd m.passContexts, phase := p }
  | transform (hp : m.phase = .transforming ready)
      (hc : (skipSubsets rnd m.passContexts)[i]? = some c) (hcan : c.canTransformNow)
      (hs : c.state = some s) (hroot : c.temporaryRoot ≠ none)
      (hadvance : c.pass.advance r (m.disk m.currentTestCase) s = .ok next)
      (hd : m.dirs d = none) : Move cfg m e
      { m.createDir d with
        jobs := m.jobs ++ [
          { order := m.order
            pass := some c.pass
            passId := some i
            passJobCounter := some c.passJobCounter
            work := .transform
              { state := some s
                testCase := m.currentTestCase
                shouldCopyCurrentTestCase := !c.pass.isHintBased
                pass := some c.pass }
            temporaryFolder := some d }]
        passContexts := (skipSubsets rnd m.passContexts).set i
          (TestManager.scheduledTransform c m.order s next)
        order := m.order + 1
        phase := .scheduling ready }
  | cancelLost (hp : m.phase = .waiting ready) : Move cfg m e (m.cancelLost ch ready)
  | timedOut (hp : m.phase = .completing ready (j.order :: todo)) (hj : j ∈ m.jobs)
      (haccepts : m.accepts cfg e j = false)
      (hfuture : j.future ≠ .pending ∧ j.future ≠ .done) : Move cfg m e
      { m.releaseJob j with
        passStatistic := m.passStatistic.addAborted j.pass j.isTransform
        passContexts := modifyAt j.passId
          (fun c => (if j.isTransform then c.dropRunning j.order else c).timedOut) m.passContexts
        phase := .completing ready todo }
  | initialized (hp : m.phase = .completing ready (j.order :: todo)) (hj : j ∈ m.jobs)
      (hfuture : j.future = .done) (hwork : j.work = .init env) (hi : j.passId = some i)
      (hc : m.passContexts[i]? = some c) (hstage : c.stage = .inInit) : Move cfg m e
      { m.deleteDirs c.temporaryRoot.toList with
        jobs := m.jobs.filter (·.order ≠ j.order)
        passStatistic := m.passStatistic.addInitialized j.pass
        passContexts := m.passContexts.set i (c.initialized env.result j.temporaryFolder)
        phase := .completing ready todo }
  | stopped (hp : m.phase = .completing ready (j.order :: todo)) (hj : j ∈ m.jobs)
      (hwork : j.work = .transform env) (hi : j.passId = some i)
      (hc : m.passContexts[i]? = some c) (hdefunct : c.defunct → b = true)
      (haccepts : m.accepts cfg e j = false) (hstops : m.stops cfg e j) : Move cfg m e
      { m.releaseJob j with
        passStatistic := (m.passStatistic.addExecuted j.pass).addFailure j.pass
        crashDirs := crashDirs
        passContexts := m.passContexts.set i
          { c.dropRunning j.order with state := none, defunct := b }
        phase := .completing ready todo }
  | ignored (hp : m.phase = .completing ready (j.order :: todo)) (hj : j ∈ m.jobs)
      (hwork : j.work = .transform env)
      (hfm : fm.foldingCandidates = m.foldingManager.foldingCandidates)
      (haccepts : m.accepts cfg e j = false) (hfuture : j.future = .done) : Move cfg m e
      { m.releaseJob j with
        passStatistic := (m.passStatistic.addExecuted j.pass).addFailure j.pass
        crashDirs := crashDirs
        foldingManager := fm
        passContexts := modifyAt j.passId (·.dropRunning j.order) m.passContexts
        phase := .completing ready todo }
  | accepted (hp : m.phase = .completing ready (j.order :: todo)) (hj : j ∈ m.jobs)
      (hwork : j.work = .transform env) (hsuccess : env.success)
      (himprovement : env.sizeImprovement = .ok improvement) (hvariant : env.variant = some v)
      (hchanged : ¬ TestCase.filecmpCmp sameMtime (m.disk m.currentTestCase) v)
      (hcand : cand = some ⟨j.order, j.pass, j.passId, env.state, -improvement, v⟩ ∨
        cand = m.successCandidate)
      (haccepts : m.accepts cfg e j = true) (hsome : cand ≠ none) : Move cfg m e
      { m.releaseJob j with
        passStatistic := (m.passStatistic.addExecuted j.pass).addSuccess j.pass
        successCandidate := cand
        foldingManager :=
          if m.interleaving then m.foldingManager.onTransformJobSuccess env.state
          else m.foldingManager
        passContexts := modifyAt j.passId
          (fun c => (c.dropRunning j.order).accepted env.state n) m.passContexts
        phase := .completing ready todo }
  | endBatch (hp : m.phase = .batchEnd) : Move cfg m e m.endBatch
  | commit (hp : m.phase = .afterBatch) (hcand : m.successCandidate = some cand)
      (hrest : f.rest = m.frame.rest)
      (hstat : TestManager.commitStatistics cand m.passStatistic = .ok s) : Move cfg m e
      { m with
        disk := fun u => if u = m.currentTestCase then cand.testCase else m.disk u
        passStatistic := s
        passContexts := contextsAfterResult cand m.passContexts
        successCandidate := none
        frame := f
        phase := .checking true }
  | finishTestCase (hp : m.phase = .finished)
      (hcache : c = m.cache ∨ ∃ hash tc, diskCopy cfg m.disk m.currentTestCase = some tc ∧
        c = m.cache.add m.frame.augmentedPasses hash { contents := tc, testCases := m.disk }) :
      Move cfg m e { m with cache := c, phase := .testCases }
  | work (hj : j ∈ m.jobs) (hfuture : j.future = .pending) (hstep : JobStep cfg m e j j') :
      Move cfg m e
        { m with jobs := m.jobs.map fun k => if k.order = j.order then j' else k }
  | initRun (hj : j ∈ m.jobs) (hfuture : j.future = .pending) (hwork : j.work = .init env)
      (hrun : env.run m.reader seed (m.disk env.testCase) = .ok (state, files)) : Move cfg m e
      { m with
        jobs := m.jobs.map fun k =>
          if k.order = j.order then
            { j with work := .init { env with result := state }, future := .done }
          else k
        dirs := fun d =>
          if d = env.tmpDir then some ⟨some (m.disk env.testCase), files⟩ else m.dirs d }

section
variable {contexts : List (PassContext L)}

theorem modifyAt_some (hc : contexts[i]? = some c) :
    modifyAt (some i) f contexts = contexts.set i (f c) := by
  simp only [modifyAt, List.modify_eq_set_getElem?, hc]
  rfl

theorem modifyAt_modifyAt (f g : PassContext L → PassContext L) :
    modifyAt i g (modifyAt i f contexts) = modifyAt i (fun c => g (f c)) contexts := by
  cases i with
  | none => rfl
  | some i => exact List.modify_modify_eq f g i contexts

theorem modifyAt_id : modifyAt i (fun c => c) contexts = contexts := by
  cases i with
  | none => rfl
  | some i => exact List.modify_id i contexts

theorem modifyAt_getElem? (h : (modifyAt i f contexts)[k]? = some c') :
    ∃ c, contexts[k]? = some c ∧ (c' = c ∧ i ≠ some k ∨ c' = f c ∧ i = some k) := by
  cases i with
  | none => exact ⟨c', h, .inl ⟨rfl, nofun⟩⟩
  | some i =>
    rw [modifyAt, List.getElem?_modify] at h
    split at h
    · rename_i heq
      obtain ⟨c, hc, rfl⟩ := Option.map_eq_some_iff.1 h
      exact ⟨c, hc, .inr ⟨rfl, by rw [heq]⟩⟩
    · rename_i hne
      rw [id_map'] at h
      exact ⟨c', h, .inl ⟨rfl, fun h => hne (Option.some.inj h)⟩⟩

theorem modifyAt_self (h : (modifyAt (some i) f contexts)[i]? = some c') :
    ∃ c, contexts[i]? = some c ∧ c' = f c := by
  obtain ⟨c, hc, ⟨_, hne⟩ | ⟨heq, _⟩⟩ := modifyAt_getElem? h
  · exact absurd rfl hne
  · exact ⟨c, hc, heq⟩

end

/-- The steps that end `run_passes` with the exception `err`: a pass raises it as its state is
advanced, a job ended with it, or the manager raises it by itself, and then it is not about text. -/
inductive Raised [DecidableEq T] (m : TestManager T L) (err : PyErr) (m' : TestManager T L) : Prop
  | advance {c : PassContext L} {i : Nat} (hphase : m'.phase = .raised err) (hdisk : m'.disk = m.disk)
      (hp : m.phase = .transforming ready) (hc : (skipSubsets rnd m.passContexts)[i]? = some c)
      (hcan : c.canTransformNow) (hs : c.state = some s)
      (hadvance : c.pass.advance r (m.disk m.currentTestCase) s = .error err)
  | job (hphase : m'.phase = .raised err) (hdisk : m'.disk = m.disk)
      (hp : m.phase = .completing ready (j.order :: todo)) (hj : j ∈ m.jobs)
      (hfuture : j.future = .failed err)
  | commit (hphase : m'.phase = .raised err) (hp : m.phase = .afterBatch)
      (hcand : m.successCandidate = some cand)
      (hdisk : m'.disk = fun u => if u = m.currentTestCase then cand.testCase else m.disk u)
      (herr : err ≠ .unicodeDecodeError)
  | manager (hphase : m'.phase = .raised err) (hdisk : m'.disk = m.disk)
      (herr : err ≠ .unicodeDecodeError)

def Effect [DecidableEq T] (cfg : Config T) (m : TestManager T L) (e : Event T L)
    (m' : TestManager T L) : Prop := Move cfg m e m' ∨ ∃ err, Raised m err m'

theorem Raised.phase [DecidableEq T] {m m' : TestManager T L} (h : Raised m err m') :
    m'.phase = .raised err := by
  cases h with
  | advance hphase => exact hphase
  | job hphase => exact hphase
  | commit hphase => exact hphase
  | manager hphase => exact hphase

/-- A job as it is when it has just been scheduled. A pass that is restarted goes back to the stage
before its initialization first. -/
inductive NewJob (m : TestManager T L) : Job T L → Prop
  | init {c : PassContext L} (hc : m.passContexts[i]? = some c)
      (hstage : c.stage = .beforeInit ∨ c.stage = .enumerating)
      (hcan : PassContext.canInitNow { c with stage := .beforeInit }
        (getFullyInitializedHintTypes m.passContexts)) : NewJob m
      { order := m.order
        pass := some c.pass
        passId := some i
        passJobCounter := some c.passJobCounter
        work := .init
          { method := c.initMethod
            pass := c.pass
            testCase := m.currentTestCase
            tmpDir := d
            dependeeBundlePaths := dependeeBundlePaths
              (m.passContexts.set i { c with stage := .beforeInit }) c.pass.inputHintTypes }
        temporaryFolder := some d }
  | transform {c : PassContext L} (hc : (skipSubsets rnd m.passContexts)[i]? = some c)
      (hcan : c.canTransformNow) (hs : c.state = some s) : NewJob m
      { order := m.order
        pass := some c.pass
        passId := some i
        passJobCounter := some c.passJobCounter
        work := .transform
          { state := some s
            testCase := m.currentTestCase
            shouldCopyCurrentTestCase := !c.pass.isHintBased
            pass := some c.pass }
        temporaryFolder := some d }
  | fold (hinterleaving : m.interleaving)
      (hsub : ∀ s ∈ subStates, s ∈ m.foldingManager.foldingCandidates) : NewJob m
      { order := m.order
        pass := none
        passId := none
        passJobCounter := none
        work := .transform
          { state := some (.foldIn subStates)
            testCase := m.currentTestCase
            shouldCopyCurrentTestCase := false
            pass := none }
        temporaryFolder := some d }

/-- How a job comes to be among those of the manager after a step. -/
inductive JobOrigin [DecidableEq T] (cfg : Config T) (m : TestManager T L) (e : Event T L)
    (m' : TestManager T L) (j' : Job T L) : Prop
  | kept (hj : j' ∈ m.jobs)
  | step (hj : j ∈ m.jobs) (hfuture : j.future = .pending) (hstep : JobStep cfg m e j j')
  | initRun (hj : j ∈ m.jobs) (hfuture : j.future = .pending) (hwork : j.work = .init env)
      (hrun : env.run m.reader seed (m.disk env.testCase) = .ok (state, files))
      (hj' : j' = { j with work := .init { env with result := state }, future := .done })
      (hdirs : m'.dirs env.tmpDir = some ⟨some (m.disk env.testCase), files⟩)
  | scheduled (hnew : NewJob m j') (hjobs : m'.jobs = m.jobs ++ [j'])
      (hfolder : j'.temporaryFolder = some d) (hd : m.dirs d = none)
      (hdirs : m'.dirs = (m.createDir d).dirs)

theorem PassContext.canInitNow_iff {c : PassContext L} : c.canInitNow ready ↔
    c.enabled ∧ ¬ c.defunct ∧ c.stage = .beforeInit ∧ ∀ t ∈ c.pass.inputHintTypes, t ∈ ready := by
  simp only [canInitNow, Bool.and_eq_true, Bool.not_eq_true', beq_iff_eq, List.all_eq_true,
    decide_eq_true_eq, and_assoc, Bool.not_eq_true]

/-- A pass that was not initialized before needs no other stage to be scheduled. -/
theorem scheduled_contexts {contexts : List (PassContext L)} {c : PassContext L}
    (hc : contexts[i]? = some c) (hstage : c.stage = .beforeInit) :
    c = { c with stage := .beforeInit } ∧
      contexts.set i { c with stage := .beforeInit } = contexts := by
  have heq : c = { c with stage := .beforeInit } := by rw [← hstage]
  obtain ⟨hlt, rfl⟩ := List.getElem?_eq_some_iff.1 hc
  exact ⟨heq, heq ▸ List.set_getElem_self hlt⟩

theorem Move.mem_jobs [DecidableEq T] {cfg : Config T} {m m' : TestManager T L}
    (hmove : Move cfg m e m') (hj' : j' ∈ m'.jobs) : JobOrigin cfg m e m' j' := by
  have happend : ∀ {j d}, NewJob m j → m'.jobs = m.jobs ++ [j] → j.temporaryFolder = some d →
      m.dirs d = none → m'.dirs = (m.createDir d).dirs → JobOrigin cfg m e m' j' := by
    intro j d hnew hjobs hfolder hd hdirs
    rw [hjobs] at hj'
    rcases List.mem_append.1 hj' with hj' | hj'
    · exact .kept hj'
    · rw [List.mem_singleton.1 hj']
      exact .scheduled hnew hjobs hfolder hd hdirs
  cases hmove with
  | cacheHit => cases hj'
  | openTestCase => cases hj'
  | init _ hc hcan hd =>
    have hstage := (PassContext.canInitNow_iff.1 hcan).2.2.1
    have hset := scheduled_contexts hc hstage
    refine happend (.init hc (.inl hstage) (hset.1 ▸ hcan)) ?_ rfl hd rfl
    rw [hset.2]
    rfl
  | restart _ _ hc hstage _ hcan hd => exact happend (.init hc (.inr hstage) hcan) rfl rfl hd rfl
  | fold _ hinterleaving hprepare hd =>
    have hsub := FoldingManager.maybePrepareFoldingJob_subset (congrArg Prod.fst hprepare)
    exact happend (.fold hinterleaving hsub) rfl rfl hd rfl
  | transform _ hc hcan hs _ _ hd => exact happend (.transform hc hcan hs) rfl rfl hd rfl
  | cancelLost =>
    obtain ⟨j, hj, rfl⟩ := List.mem_map.1 hj'
    split
    · rename_i hlost
      exact .step hj hlost.2 (.ended nofun)
    · exact .kept hj
  | timedOut => exact .kept (List.mem_filter.1 hj').1
  | initialized => exact .kept (List.mem_filter.1 hj').1
  | stopped => exact .kept (List.mem_filter.1 hj').1
  | ignored => exact .kept (List.mem_filter.1 hj').1
  | accepted => exact .kept (List.mem_filter.1 hj').1
  | endBatch => cases hj'
  | work hj hfuture hstep =>
    obtain ⟨k, hk, rfl⟩ := List.mem_map.1 hj'
    split
    · exact .step hj hfuture hstep
    · exact .kept hk
  | initRun hj hfuture hwork hrun =>
    obtain ⟨k, hk, rfl⟩ := List.mem_map.1 hj'
    split
    · exact .initRun hj hfuture hwork hrun rfl (if_pos rfl)
    · exact .kept hk
  | _ => exact .kept hj'

theorem Move.disk [DecidableEq T] {cfg : Config T} {m m' : TestManager T L}
    (hmove : Move cfg m e m') : m'.disk = m.disk ∨ (∃ t item, CacheHit cfg m t item ∧
      m'.disk = fun u => if u = t then item.contents else m.disk u) ∨
      (m.phase = .afterBatch ∧ ∃ cand, m.successCandidate = some cand ∧
        m'.disk = fun u => if u = m.currentTestCase then cand.testCase else m.disk u) := by
  cases hmove with
  | cacheHit hhit => exact .inr (.inl ⟨_, _, hhit, rfl⟩)
  | commit hp hcand => exact .inr (.inr ⟨hp, _, hcand, rfl⟩)
  | _ => exact .inl rfl

/-- While there are jobs or a candidate, the test cases and the choice of the current one stay. -/
theorem Move.testCases [DecidableEq T] {cfg : Config T} {m m' : TestManager T L}
    (hmove : Move cfg m e m') : (m'.disk = m.disk ∧ m'.currentTestCase = m.currentTestCase) ∨
      m'.phase.kind = .outside ∨ m'.phase.kind = .between := by
  cases hmove with
  | skipEmpty hp => exact .inr (.inl (by rw [hp]; rfl))
  | cacheHit hhit => exact .inr (.inl (by rw [hhit.phase]; rfl))
  | openTestCase hp => exact .inr (.inr rfl)
  | commit => exact .inr (.inr rfl)
  | _ => exact .inl ⟨rfl, rfl⟩

end Cvise
