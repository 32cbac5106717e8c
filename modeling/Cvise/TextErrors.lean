import Cvise.BatchLoop
import Cvise.HintStorage
import Cvise.InitJobs
import Cvise.UnfinishedWork

namespace Cvise
set_option autoImplicit true

variable {T L : Type}

/-- The pass that the step schedules raises `UnicodeDecodeError` when its state is advanced. -/
structure AdvanceRaises (m : TestManager T L) (ch : Choice) (c : PassContext L) (i : Nat)
    (s : PassState L) : Prop where
  phase : ∃ ready, m.phase = .transforming ready
  picked : pickTransform (skipSubsets ch.rnd m.passContexts) = some (c, i)
  state : c.state = some s
  root : c.temporaryRoot ≠ none
  dir : m.dirs ch.dir = none
  raises : c.pass.advance (ch.rnd m.passContexts.length 0) (m.disk m.currentTestCase) s =
    .error .unicodeDecodeError

/-- The job is about to initialize its pass. -/
structure Initializes (m : TestManager T L) (order : Nat) (j : Job T L) (env : InitEnv T L)
    (deps : List HintBundle) : Prop where
  found : m.jobs.find? (·.order = order) = some j
  pending : j.future = .pending
  work : j.work = .init env
  loaded : env.dependeeBundlePaths.mapM m.reader.loadAll = .ok deps

/-- `advance_on_success` raises it in the job of this order. -/
structure SuccessRaises (m : TestManager T L) (order : Nat) (seed : Seed) (j : Job T L)
    (env : InitEnv T L) (deps : List HintBundle) : Prop extends Initializes m order j env deps where
  raises : ∃ previous succeeded, env.method = .advanceOnSuccess previous succeeded ∧
    env.pass.advanceOnSuccess seed (m.disk env.testCase) previous env.tmpDir succeeded deps =
      .error .unicodeDecodeError

/-- Neither `advance` nor `advance_on_success` raises `UnicodeDecodeError` in the step. -/
def TextReadable (m : TestManager T L) : Event T L → Prop
  | .main ch => ∀ c i s, ¬ AdvanceRaises m ch c i s
  | .init order seed => ∀ j env deps, ¬ SuccessRaises m order seed j env deps
  | _ => True

section
variable {m m' : TestManager T L} {c : PassContext L}

theorem reader_error {r : HintReader} (h : r.loadAll path = .error err) :
    err = .fileNotFoundError := by
  rw [HintReader.loadAll] at h
  split at h
  · cases h
    rfl
  · cases h

/-- A job that initializes a pass fails so in `advance_on_success` only. -/
theorem initRun_error {env : InitEnv T L}
    (h : env.run r seed tc = .error .unicodeDecodeError) :
    ∃ deps previous succeeded, env.dependeeBundlePaths.mapM r.loadAll = .ok deps ∧
      env.method = .advanceOnSuccess previous succeeded ∧
      env.pass.advanceOnSuccess seed tc previous env.tmpDir succeeded deps =
        .error .unicodeDecodeError := by
  rcases except_bind_error.1 h with h | ⟨deps, hdeps, h⟩
  · obtain ⟨path, _, herr⟩ := except_mapM_error h
    cases reader_error herr
  · split at h
    · split at h
      · cases h
      · rename_i hne
        exact absurd h hne
    · rename_i previous succeeded hmethod
      exact ⟨deps, previous, succeeded, hdeps, hmethod, h⟩

theorem transformStep_raises (hp : m.phase = .transforming ready)
    (h : m.transformStep ch ready = some m') (hraised : m'.phase = .raised .unicodeDecodeError) :
    ∃ c i s, AdvanceRaises m ch c i s := by
  rw [TestManager.transformStep] at h
  simp only at h
  split at h
  · cases h
    have hk := TestManager.endScheduling_kind ready
      ({ m with passContexts := skipSubsets ch.rnd m.passContexts } : TestManager T L)
    rw [hraised] at hk
    cases hk
  · rename_i c i hpick
    split at h
    · cases h
      cases hraised
    · rename_i s hs
      split at h
      · rename_i hd
        cases h
        rw [TestManager.scheduleTransform] at hraised
        split at hraised
        · cases hraised
        · rename_i hroot
          cases hadvance : c.pass.advance (ch.rnd m.passContexts.length 0)
              (m.disk m.currentTestCase) s with
          | ok next =>
            simp only [hadvance] at hraised
            cases hraised
          | error err =>
            simp only [hadvance] at hraised
            cases hraised
            exact ⟨c, i, s, ⟨ready, hp⟩, hpick, hs, fun h => hroot (by rw [h]; rfl),
              Option.isNone_iff_eq_none.1 hd, hadvance⟩
      · cases h

/-- Each job was there before the step, or it has not failed. -/
def NoneFails (m m' : TestManager T L) : Prop :=
  ∀ j ∈ m'.jobs, j ∈ m.jobs ∨ ∀ err, j.future ≠ .failed err

theorem NoneFails.subset (h : m'.jobs ⊆ m.jobs) : NoneFails m m' := fun _ hj => .inl (h hj)

theorem NoneFails.same (h : m'.jobs = m.jobs) : NoneFails m m' := fun _ hj => .inl (h ▸ hj)

theorem NoneFails.append (h : m'.jobs = m.jobs ++ [j]) (hj : j.future = .pending) :
    NoneFails m m' := by
  intro k hk
  rw [h] at hk
  rcases List.mem_append.1 hk with hk | hk
  · exact .inl hk
  · cases List.mem_singleton.1 hk
    rw [hj]
    exact .inr nofun

theorem startRun_jobs : (m.startRun cfg call name).jobs = m.jobs := by
  rw [TestManager.startRun]
  split
  · rfl
  · rfl

theorem runPasses_jobs : (m.runPasses cfg call).jobs = m.jobs := by
  unfold TestManager.runPasses
  split
  · split
    · exact startRun_jobs
    · exact startRun_jobs
    · split
      · exact startRun_jobs
      · rfl
  · rfl

theorem finishTestCase_jobs : (m.finishTestCase cfg).jobs = m.jobs := by
  rw [TestManager.finishTestCase]
  split
  · rfl
  · split
    · rfl
    · rfl

theorem transformStep_noneFails (h : m.transformStep ch ready = some m') : NoneFails m m' := by
  rw [TestManager.transformStep] at h
  simp only at h
  split at h
  · cases h
    exact .same rfl
  · rename_i c i hpick
    split at h
    · cases h
      exact .same rfl
    · rename_i s hs
      split at h
      · cases h
        rw [TestManager.scheduleTransform]
        split
        · exact .same rfl
        · cases c.pass.advance (ch.rnd m.passContexts.length 0) (m.disk m.currentTestCase) s with
          | ok next => exact .append rfl rfl
          | error err => exact .same rfl
      · cases h

theorem completeStep_jobs : (m.completeStep cfg ch ready todo).jobs ⊆ m.jobs := by
  cases todo with
  | nil =>
    rw [TestManager.completeStep]
    split
    · exact List.Subset.refl _
    · exact List.Subset.refl _
  | cons order todo =>
    rw [TestManager.completeStep]
    simp only
    split
    · exact List.Subset.refl _
    · rename_i j _
      cases hprocess : ({ m with phase := .completing ready todo } : TestManager T L).processJob cfg
          ch.sameMtime j with
      | error err => exact List.Subset.refl _
      | ok m' => exact (processJob_frame hprocess).2

theorem initStep_noneFails (h : m.initStep cfg ch ready = some m') : NoneFails m m' := by
  rw [TestManager.initStep] at h
  split at h
  · cases h
    exact .same rfl
  · split at h
    · cases h
      exact .same rfl
    · split at h
      · cases h
        exact .append rfl rfl
      · cases h

theorem restartStep_noneFails (h : m.restartStep ch ready = some m') : NoneFails m m' := by
  rw [TestManager.restartStep] at h
  split at h
  · cases h
    exact .same rfl
  · split at h
    · split at h
      · cases h
        exact .same rfl
      · split at h
        · simp only at h
          split at h
          · split at h
            · cases h
              exact .append rfl rfl
            · cases h
          · cases h
            exact .same rfl
        · cases h
          exact .same rfl
    · cases h
      exact .same rfl

theorem foldStep_noneFails (h : m.foldStep ch ready = some m') : NoneFails m m' := by
  rw [TestManager.foldStep] at h
  split at h
  · simp only at h
    split at h
    · split at h
      · cases h
        exact .append rfl rfl
      · cases h
    · cases h
      exact .same rfl
  · cases h
    exact .same rfl

theorem cancelLost_noneFails : NoneFails m (m.cancelLost ch ready) := by
  intro j hj
  obtain ⟨k, hk, rfl⟩ := List.mem_map.1 hj
  split
  · exact .inr nofun
  · exact .inl hk

theorem checkProgress_jobs : (m.checkProgress cfg isSuccess).jobs = m.jobs := by
  rw [TestManager.checkProgress]
  split
  · rfl
  · split
    · rfl
    · split
      · rfl
      · rfl

theorem outerLoop_jobs : (m.outerLoop cfg ch).jobs = m.jobs := by
  rw [TestManager.outerLoop]
  split
  · rw [TestManager.startBatch]
    split
    · rfl
    · rfl
  · rfl

theorem loopTest_jobs : (m.loopTest ready).jobs = m.jobs := by
  rw [TestManager.loopTest]
  split
  · rfl
  · rfl

/-- Nothing about text has ended `run_passes`, or will when a job completes. -/
structure TextSafe (m : TestManager T L) : Prop where
  phase : m.phase ≠ .raised .unicodeDecodeError
  jobs : ∀ j ∈ m.jobs, j.future ≠ .failed .unicodeDecodeError

theorem TextSafe.work (h : TextSafe m) (hm' : m.work o f = some m')
    (hf : ∀ j j', j.future = .pending → f j = some j' → j'.future ≠ .failed .unicodeDecodeError) :
    TextSafe m' := by
  refine ⟨TestManager.work_phase hm' ▸ h.phase, ?_⟩
  rw [TestManager.work] at hm'
  split at hm'
  · cases hm'
  · split at hm'
    · rename_i hpending
      obtain ⟨j', hj', rfl⟩ := Option.map_eq_some_iff.1 hm'
      intro k hk
      obtain ⟨j, hj, rfl⟩ := List.mem_map.1 hk
      split
      · exact hf _ _ hpending hj'
      · exact h.jobs j hj
    · cases hm'

theorem TextSafe.runInit (h : TextSafe m) (hreadable : TextReadable m (.init o seed : Event T L))
    (hm' : m.runInit o seed = some m') : TextSafe m' := by
  rw [TestManager.runInit] at hm'
  split at hm'
  · cases hm'
  · rename_i j hfind
    split at hm'
    · cases hm'
    · rename_i env hwork
      obtain ⟨m₁, hm₁, hm'⟩ := Option.map_eq_some_iff.1 hm'
      have hsafe : TextSafe m₁ := by
        apply h.work hm₁
        rintro k _ _ ⟨⟩ hfailed
        have hpending : j.future = .pending := by
          simp only [TestManager.work, hfind] at hm₁
          split at hm₁
          · assumption
          · cases hm₁
        simp only at hfailed
        split at hfailed
        · rename_i hrun
          cases hfailed
          obtain ⟨deps, previous, succeeded, hloaded, hmethod, hraises⟩ := initRun_error hrun
          exact hreadable j env deps
            ⟨⟨hfind, hpending, hwork, hloaded⟩, previous, succeeded, hmethod, hraises⟩
        · cases hfailed
      split at hm'
      · exact hm' ▸ hsafe
      · exact hm' ▸ ⟨hsafe.phase, hsafe.jobs⟩

end

section
variable [DecidableEq T] {cfg : Config T} {m m' : TestManager T L} {e : Event T L}

theorem nextTestCase_jobs : (m.nextTestCase cfg).jobs ⊆ m.jobs := by
  rw [TestManager.nextTestCase]
  split
  · exact List.Subset.refl _
  · simp only
    split
    · exact List.Subset.refl _
    · rw [TestManager.openTestCase]
      simp only
      split
      · exact List.nil_subset _
      · exact List.nil_subset _

theorem afterBatch_jobs : m.afterBatch.jobs = m.jobs := by
  unfold TestManager.afterBatch
  split
  · rfl
  · rw [TestManager.processResult]
    simp only
    split
    · rfl
    · rfl

theorem mainStep_noneFails (h : m.mainStep cfg ch = some m') : NoneFails m m' := by
  rw [TestManager.mainStep] at h
  split at h
  · cases h
  · cases h
    exact .subset nextTestCase_jobs
  · cases h
    exact .same outerLoop_jobs
  · cases h
    exact .same loopTest_jobs
  · exact initStep_noneFails h
  · exact restartStep_noneFails h
  · exact foldStep_noneFails h
  · exact transformStep_noneFails h
  · cases h
    exact cancelLost_noneFails
  · cases h
    exact .subset completeStep_jobs
  · cases h
    exact .subset (List.nil_subset _)
  · cases h
    exact .same afterBatch_jobs
  · cases h
    exact .same checkProgress_jobs
  · cases h
    exact .same finishTestCase_jobs
  · cases h

theorem Move.alive (hmove : Move cfg m e m') (halive : m.Alive) : m'.Alive := by
  have hbatch : ∀ {p : Phase}, p.kind = .batch → p.kind ≠ .failed := by
    intro p hk
    rw [hk]
    nofun
  cases hmove with
  | control hp => exact fun hfailed => halive (hp ▸ hfailed)
  | noTransform _ hkind => exact hbatch hkind
  | skipEmpty => exact halive
  | cacheHit => exact halive
  | init => exact halive
  | work => exact halive
  | initRun => exact halive
  | _ => nofun

/-- `run_passes` ends with such an error if a pass that it advances raises it, or a job did. -/
theorem TextSafe.effect (h : TextSafe m) (halive : m.Alive) (heffect : Effect cfg m e m')
    (hadvance : ∀ ready, m.phase = .transforming ready → m'.phase ≠ .raised .unicodeDecodeError) :
    m'.phase ≠ .raised .unicodeDecodeError := by
  intro hraised
  rcases heffect with hmove | ⟨err, heffect⟩
  · exact hmove.alive halive (by rw [hraised]; rfl)
  · cases heffect.phase.symm.trans hraised
    cases heffect with
    | advance _ _ hp => exact hadvance _ hp hraised
    | job _ _ _ hj hfailed => exact h.jobs _ hj hfailed
    | commit _ _ _ _ herr => exact herr rfl
    | manager _ _ herr => exact herr rfl

theorem TextSafe.mainStep (h : TextSafe m) (hreadable : TextReadable m (.main ch : Event T L))
    (hm' : m.mainStep cfg ch = some m') : TextSafe m' := by
  constructor
  · have halive : m.Alive := by
      intro hfailed
      obtain ⟨err, hp⟩ := Phase.failed_iff.1 hfailed
      rw [TestManager.mainStep, hp] at hm'
      cases hm'
    apply h.effect halive (TestManager.mainStep_effect hm')
    intro ready hp hraised
    rw [TestManager.mainStep, hp] at hm'
    obtain ⟨c, i, s, hraises⟩ := transformStep_raises hp hm' hraised
    exact hreadable c i s hraises
  · intro j hj
    rcases mainStep_noneFails hm' j hj with hold | hnone
    · exact h.jobs j hold
    · exact hnone _

/-- `new` and `transform` do not let the error out of the workers. -/
theorem TextSafe.step (h : TextSafe m) (hreadable : TextReadable m e)
    (hm' : step cfg m e = some m') : TextSafe m' := by
  cases e with
  | runPasses call =>
    have heffect := step_effect hm'
    rw [Cvise.step] at hm'
    split at hm'
    · rename_i hcond
      cases hm'
      refine ⟨h.effect ?_ heffect ?_, runPasses_jobs.symm ▸ h.jobs⟩
      · rw [TestManager.Alive, hcond.1]
        intro h
        cases h
      · rw [hcond.1]
        intro _ hphase
        cases hphase
    · cases hm'
  | main ch => exact h.mainStep hreadable hm'
  | copy order t =>
    apply h.work hm'
    intro j j' hpending hj'
    rw [TestManager.copyTestCase] at hj'
    split at hj'
    · cases hj'
    · split at hj'
      · split at hj'
        · cases hj'
          simp only [hpending]
          intro h
          cases h
        · cases hj'
          intro h
          cases h
      · cases hj'
  | transform order seed =>
    have hends : ∀ b : Bool, (if b then Future.pending else .done) ≠ .failed .unicodeDecodeError := by
      decide
    apply h.work hm'
    intro j j' _ hj'
    rw [TestManager.callTransform] at hj'
    split at hj'
    · cases hj'
    · split at hj'
      · cases hj'
        exact hends _
      · cases hj'
  | test order =>
    apply h.work hm'
    intro j j' _ hj'
    rw [TestManager.runTest] at hj'
    split at hj'
    · cases hj'
    · split at hj'
      · cases hj'
        intro h
        cases h
      · cases hj'
  | init order seed => exact h.runInit hreadable hm'
  | timeOut order =>
    apply h.work hm'
    rintro j _ _ ⟨⟩
    intro h
    cases h
  | fail order =>
    apply h.work hm'
    rintro j _ _ ⟨⟩
    simp only
    split
    · intro h
      cases h
    · intro h
      cases h

end

/-- The job has ended with what stops its pass: `new` returned no state, or `transform` said so. -/
def Job.Aborted (j : Job T L) : Prop :=
  j.future = .done ∧ match j.work with
    | .init env => env.result = none
    | .transform env => env.result = some .stop

/-- The worker with the job of this order has made this job of it, and the passes are as before. -/
structure WorkedOn (m m' : TestManager T L) (order : Nat) (j' : Job T L) : Prop where
  phase : m'.phase = m.phase
  contexts : m'.passContexts = m.passContexts
  found : m'.jobs.find? (·.order = order) = some j'

/-- One pass is left without a state, and nothing changes for the others. -/
structure OnlyStops (m m' : TestManager T L) (i : Nat) : Prop where
  alive : m'.Alive
  stopped : ∃ c, m'.passContexts[i]? = some c ∧ c.state = none
  others : ∀ k, k ≠ i → m'.passContexts[k]? = m.passContexts[k]?

/-- When `new` or `transform` raises `UnicodeDecodeError`, then its pass stops alone. -/
structure Contained [DecidableEq T] (cfg : Config T) (m : TestManager T L) : Prop where
  new : ∀ order seed j env deps, Initializes m order j env deps → env.method = .new →
    env.pass.new seed (m.disk env.testCase) env.tmpDir deps = .error .unicodeDecodeError →
      ∃ m' j', step cfg m (.init order seed) = some m' ∧ WorkedOn m m' order j' ∧ j'.Aborted ∧
        j'.passId = j.passId
  transform : ∀ order seed j env p m', m.jobs.find? (·.order = order) = some j →
    j.work = .transform env → env.pass = some p →
      p.transform m.reader seed (m.disk env.testCase) env.variant env.state =
        .error .unicodeDecodeError → step cfg m (.transform order seed) = some m' →
          ∃ j', WorkedOn m m' order j' ∧ j'.Aborted ∧ j'.passId = j.passId
  completes : ∀ ready todo ch j i, m.phase = .completing ready (j.order :: todo) →
    m.jobs.find? (·.order = j.order) = some j → j.Aborted → j.passId = some i →
      ∃ m', step cfg m (.main ch) = some m' ∧ OnlyStops m m' i

/-- When `advance` or `advance_on_success` raises it, then it ends `run_passes`. -/
structure Escapes [DecidableEq T] (cfg : Config T) (m : TestManager T L) : Prop where
  advance : ∀ ch c i s, AdvanceRaises m ch c i s →
    ∃ m', step cfg m (.main ch) = some m' ∧ m'.phase = .raised .unicodeDecodeError
  advanceOnSuccess : ∀ order seed j env deps, SuccessRaises m order seed j env deps →
    ∃ m' j', step cfg m (.init order seed) = some m' ∧ WorkedOn m m' order j' ∧
      j'.future = .failed .unicodeDecodeError
  completes : ∀ ready todo ch j, m.phase = .completing ready (j.order :: todo) →
    m.jobs.find? (·.order = j.order) = some j → j.future = .failed .unicodeDecodeError →
      ∃ m', step cfg m (.main ch) = some m' ∧ m'.phase = .raised .unicodeDecodeError

section
variable {m m' : TestManager T L} {j j' : Job T L}

/-- The job that a worker leaves is found under its order. -/
theorem find_worked {jobs : List (Job T L)} (hfind : jobs.find? (·.order = order) = some j)
    (horder : j'.order = order) :
    (jobs.map fun k => if k.order = order then j' else k).find? (·.order = order) = some j' := by
  induction jobs with
  | nil => cases hfind
  | cons k jobs ih =>
    rw [List.map_cons, List.find?_cons]
    by_cases hk : k.order = order
    · simp [hk, horder]
    · rw [List.find?_cons_of_neg (by simpa using hk)] at hfind
      simp only [hk, if_false, decide_false]
      exact ih hfind

theorem work_eq {f : Job T L → Option (Job T L)}
    (hfind : m.jobs.find? (·.order = order) = some j) (hpending : j.future = .pending)
    (hf : f j = some j') : m.work order f =
      some { m with jobs := m.jobs.map fun k => if k.order = order then j' else k } := by
  simp only [TestManager.work, hfind, if_pos hpending, hf]
  rfl

/-- The job that initializes a pass ends with what its environment's `run` returns or raises. -/
theorem Initializes.step (h : Initializes m order j env deps)
    (houtcome : m.initOutcome seed env = (w, future, dir)) :
    ∃ m', m.runInit order seed = some m' ∧
      WorkedOn m m' order { j with work := w, future := future } := by
  have horder : j.order = order := by simpa using List.find?_some h.found
  have hwork : m.work order (fun j => some { j with work := w, future := future }) = some _ :=
    work_eq h.found h.pending rfl
  simp only [TestManager.runInit, h.found, h.work, houtcome, hwork, Option.map_some]
  cases dir with
  | none => exact ⟨_, rfl, rfl, rfl, find_worked h.found horder⟩
  | some d => exact ⟨_, rfl, rfl, rfl, find_worked h.found horder⟩

theorem Initializes.outcome_new (h : Initializes m order j env deps) (hmethod : env.method = .new)
    (hraises : env.pass.new seed (m.disk env.testCase) env.tmpDir deps =
      .error .unicodeDecodeError) :
    m.initOutcome seed env = (.init { env with result := none }, .done,
      some ⟨some (m.disk env.testCase), []⟩) := by
  have hrun : env.run m.reader seed (m.disk env.testCase) = .ok (none, []) := by
    simp only [InitEnv.run, h.loaded, hmethod, bind, Except.bind, hraises]
    rfl
  rw [TestManager.initOutcome, hrun]

theorem SuccessRaises.outcome (h : SuccessRaises m order seed j env deps) :
    m.initOutcome seed env = (.init env, .failed .unicodeDecodeError, none) := by
  obtain ⟨previous, succeeded, hmethod, hraises⟩ := h.raises
  have hrun : env.run m.reader seed (m.disk env.testCase) = .error .unicodeDecodeError := by
    simp only [InitEnv.run, h.loaded, hmethod]
    exact hraises
  rw [TestManager.initOutcome, hrun]

end

section
variable {cfg : Config T} {m m' : TestManager T L} {j : Job T L}

theorem OnlyStops.set {c c' : PassContext L} (halive : m'.Alive) (hc : m.passContexts[i]? = some c)
    (hcontexts : m'.passContexts = m.passContexts.set i c') (hstate : c'.state = none) :
    OnlyStops m m' i where
  alive := halive
  stopped := ⟨c', by rw [hcontexts, List.getElem?_set_self (List.getElem?_eq_some_iff.1 hc).1], hstate⟩
  others k hk := by rw [hcontexts, List.getElem?_set_ne hk.symm]

theorem OnlyStops.of_phase (h : OnlyStops { m with phase := p } m' i) : OnlyStops m m' i :=
  ⟨h.alive, h.stopped, h.others⟩

theorem processJob_init {env : InitEnv T L} {c : PassContext L} (halive : m.Alive)
    (hfuture : j.future = .done) (hwork : j.work = .init env) (hresult : env.result = none)
    (hi : j.passId = some i) (hc : m.passContexts[i]? = some c) (hstage : c.stage = .inInit) :
    ∃ m', m.processJob cfg sameMtime j = .ok m' ∧ OnlyStops m m' i := by
  simp only [TestManager.processJob, hfuture, hwork, TestManager.handleFinishedInitJob, hi,
    TestManager.context_ok.2 hc, bind, Except.bind, hstage, if_true]
  exact ⟨_, rfl, .set halive hc rfl hresult⟩

theorem popRunning_running {c : PassContext L} (hi : j.passId = some i) (htransform : j.isTransform)
    (hc : m.passContexts[i]? = some c) (hrunning : (j.order, s) ∈ c.runningTransformOrderToState) :
    m.popRunning j = .ok (m.setContext i (c.dropRunning j.order)) := by
  have hpop : c.popRunning j.order = .ok (c.dropRunning j.order) := by
    rw [PassContext.popRunning, if_pos]
    · rfl
    · exact List.any_eq_true.2 ⟨_, hrunning, decide_eq_true rfl⟩
  simp only [TestManager.popRunning, hi, htransform, if_true, TestManager.context_ok.2 hc, hpop, bind,
    Except.bind]
  rfl

theorem checkPassResult_stop {env : TestEnv T L} (hresult : env.result = some .stop) :
    m.checkPassResult cfg sameMtime j env = .ok (.stop, m) := by
  have hsuccess : env.success = false := by
    rw [TestEnv.success, hresult]
    rfl
  simp only [TestManager.checkPassResult, hsuccess, hresult]
  rfl

theorem finishTransform_stop {env : TestEnv T L} {c : PassContext L} (hi : j.passId = some i)
    (hc : m.passContexts[i]? = some c) : m.finishTransform .stop j env =
      .ok { m.setContext i { c with state := none } with
        passStatistic := m.passStatistic.addFailure j.pass } := by
  simp only [TestManager.finishTransform, hi, TestManager.context_ok.2 hc, bind, Except.bind]
  rfl

theorem processJob_transform {env : TestEnv T L} {c : PassContext L} (halive : m.Alive)
    (hfuture : j.future = .done) (hwork : j.work = .transform env) (hresult : env.result = some .stop)
    (hi : j.passId = some i) (hc : m.passContexts[i]? = some c)
    (hrunning : (j.order, s) ∈ c.runningTransformOrderToState) :
    ∃ m', m.processJob cfg sameMtime j = .ok m' ∧ OnlyStops m m' i := by
  have htransform : j.isTransform := by rw [Job.isTransform, hwork]
  have hlt := (List.getElem?_eq_some_iff.1 hc).1
  let executed : TestManager T L := { m with passStatistic := m.passStatistic.addExecuted j.pass }
  have hpopped : executed.popRunning j = .ok (executed.setContext i (c.dropRunning j.order)) :=
    popRunning_running hi htransform hc hrunning
  have hfinish : (executed.setContext i (c.dropRunning j.order)).finishTransform .stop j env = .ok _ :=
    finishTransform_stop hi (List.getElem?_set_self hlt)
  simp only [TestManager.processJob, hfuture, hwork]
  refine ⟨_, except_bind_ok.2 ⟨_, hpopped, except_bind_ok.2
    ⟨_, checkPassResult_stop hresult, except_bind_ok.2 ⟨_, hfinish, rfl⟩⟩⟩, ?_⟩
  exact .set halive hc (List.set_set _) rfl

end

section
variable [DecidableEq T] {cfg : Config T} {m m' : TestManager T L} {j : Job T L}

theorem completeStep_found (hp : m.phase = .completing ready (j.order :: todo))
    (hfind : m.jobs.find? (·.order = j.order) = some j) : step cfg m (.main ch) =
      some (TestManager.orRaise { m with phase := .completing ready todo }
        (({ m with phase := .completing ready todo } : TestManager T L).processJob cfg
          ch.sameMtime j)) := by
  rw [step, TestManager.mainStep, hp]
  simp only [TestManager.completeStep, hfind]

theorem Escapes.all (m : TestManager T L) : Escapes cfg m := by
  constructor
  · intro ch c i s h
    obtain ⟨ready, hp⟩ := h.phase
    have hstep : step cfg m (.main ch) =
        some (TestManager.raise .unicodeDecodeError
          { m with passContexts := skipSubsets ch.rnd m.passContexts }) := by
      simp only [step, TestManager.mainStep, hp, TestManager.transformStep, h.picked, h.state, h.dir,
        Option.isNone_none, if_true, TestManager.scheduleTransform, Option.isNone_iff_eq_none, h.root,
        if_false, h.raises]
      rfl
    exact ⟨_, hstep, rfl⟩
  · intro order seed j env deps h
    obtain ⟨m', hstep, hworked⟩ := h.toInitializes.step h.outcome
    exact ⟨m', _, hstep, hworked, rfl⟩
  · intro ready todo ch j hp hfind hfuture
    refine ⟨_, completeStep_found hp hfind, ?_⟩
    rw [TestManager.processJob, hfuture]
    rfl

theorem WorkedOn.transform {env : TestEnv T L} {p : Pass L}
    (hfind : m.jobs.find? (·.order = order) = some j) (hwork : j.work = .transform env)
    (hpass : env.pass = some p) (hraises : p.transform m.reader seed (m.disk env.testCase)
      env.variant env.state = .error .unicodeDecodeError)
    (hstep : step cfg m (.transform order seed) = some m') :
    WorkedOn m m' order
      { j with work := .transform { env with result := some .stop }, future := .done } := by
  have horder : j.order = order := by simpa using List.find?_some hfind
  have hrun : env.runTransform m.reader seed (m.disk env.testCase) =
      ({ env with result := some .stop }, false) := by
    have hcall : env.callTransform m.reader seed (m.disk env.testCase) =
        .error .unicodeDecodeError := by
      simp only [TestEnv.callTransform, hpass, hraises]
    rw [TestEnv.runTransform, hcall]
  simp only [step, TestManager.work, hfind] at hstep
  split at hstep
  · simp only [TestManager.callTransform, hwork, hrun] at hstep
    split at hstep
    · cases hstep
      exact ⟨rfl, rfl, find_worked hfind horder⟩
    · cases hstep
  · cases hstep

/-- An aborted job completes, as its pass has it among the running ones or waits for it. -/
theorem Contained.of_run (h : Run (step cfg) C (TestManager.start disk t name n) m)
    (halive : m.Alive) : Contained cfg m := by
  constructor
  · intro order seed j env deps h hmethod hraises
    obtain ⟨m', hstep, hworked⟩ := h.step (h.outcome_new hmethod hraises)
    exact ⟨m', _, hstep, hworked, ⟨rfl, rfl⟩, rfl⟩
  · intro order seed j env p m' hfind hwork hpass hraises hstep
    exact ⟨_, .transform hfind hwork hpass hraises hstep, ⟨rfl, rfl⟩, rfl⟩
  · intro ready todo ch j i hp hfind ⟨hfuture, haborted⟩ hi
    have hj := List.mem_of_find?_eq_some hfind
    have hk : m.phase.kind = .batch := by rw [hp]; rfl
    let handling : TestManager T L := { m with phase := .completing ready todo }
    have hhandling : handling.Alive := nofun
    obtain ⟨m', hprocess, hstops⟩ : ∃ m', handling.processJob cfg ch.sameMtime j = .ok m' ∧
        OnlyStops handling m' i := by
      cases hwork : j.work with
      | init env =>
        have hmem : some i ∈ initializing m.jobs :=
          mem_initializing.2 ⟨j, hj, by rw [Job.isTransform, hwork], hi⟩
        obtain ⟨k, heq, hstage⟩ := (InitJobs.of_run h halive).stage _ hmem
        cases heq
        obtain ⟨c, hc, hstage⟩ := Option.map_eq_some_iff.1 ((List.getElem?_map ..).symm.trans hstage)
        rw [hwork] at haborted
        exact processJob_init hhandling hfuture hwork haborted hi hc hstage
      | transform env =>
        have hc := List.getElem?_eq_getElem (JobsPlaced.of_run h halive j hj i hi)
        obtain ⟨s, hrunning, _⟩ := (Tracked.of_run h halive hk hc).jobs j hj
          (by rw [Job.isTransform, hwork]) hi
        rw [hwork] at haborted
        exact processJob_transform hhandling hfuture hwork haborted hi hc hrunning
    refine ⟨m', ?_, hstops.of_phase⟩
    rw [completeStep_found hp hfind, hprocess]
    rfl

/-- Text that cannot be decoded never ends `run_passes`, unless a pass reads it in `advance` or in
`advance_on_success`; read in `new` or in `transform` it stops this pass alone. -/
theorem unicode_contained (cfg : Config T) (disk : T → TestCase) (t : T)
    (startWithPass : Option Str) (crashDirs : Nat) :
    (∀ m : TestManager T L, Run (step cfg) TextReadable (.start disk t startWithPass crashDirs) m →
      m.phase ≠ .raised .unicodeDecodeError ∧ (m.Alive → Contained cfg m)) ∧
    ∀ m : TestManager T L, Escapes cfg m := by
  refine ⟨fun m hrun => ⟨?_, fun halive => .of_run hrun halive⟩, .all⟩
  have hsafe : TextSafe m := by
    apply hrun.invariant (P := fun m => TextSafe m)
    · exact ⟨nofun, fun j hj => absurd hj List.not_mem_nil⟩
    · exact fun u e v hsafe hreadable hstep => hsafe.step hreadable hstep
  exact hsafe.phase

end

/-- `Path.read_text()`. -/
def TestCase.readText : TestCase → Except PyErr Str
  | .dir _ => .error .osError
  | .file data =>
    match decode data with
    | none => .error .unicodeDecodeError
    | some text => .ok (universalNewlines text)

theorem Pass.advance_readable {p : Pass L} (h : p.isHintBased) :
    p.advance rnd tc s ≠ .error .unicodeDecodeError := by
  unfold advance
  split
  · intro h
    cases h
  · rename_i hp
    rw [isHintBased, hp] at h
    cases h
  · intro h
    cases h

/-- All passes have hints, and none has been restarted. -/
def hintsOnly (m : TestManager T L) (_ : Event T L) : Bool :=
  m.passContexts.all (·.pass.isHintBased) && m.jobs.all fun j =>
    match j.work with
    | .init env => match env.method with
      | .new => true
      | .advanceOnSuccess _ _ => false
    | .transform _ => true

theorem textReadable_of_hintsOnly {m : TestManager T L} (h : hintsOnly m e) : TextReadable m e := by
  simp only [hintsOnly, Bool.and_eq_true, List.all_eq_true] at h
  obtain ⟨hpasses, hjobs⟩ := h
  cases e with
  | main ch =>
    intro c i s hraises
    obtain ⟨hc', _⟩ := pickTransform_some hraises.picked
    obtain ⟨c₀, hc₀, hkeeps⟩ := skipSubsets_from (m.disk m.currentTestCase) hc'
    have hhint := hpasses c₀ (List.mem_of_getElem? hc₀)
    exact Pass.advance_readable (hkeeps.pass ▸ hhint) hraises.raises
  | init order seed =>
    intro j env deps hraises
    have hj := hjobs j (List.mem_of_find?_eq_some hraises.found)
    obtain ⟨previous, succeeded, hmethod, _⟩ := hraises.raises
    rw [hraises.work] at hj
    simp only [hmethod] at hj
    cases hj
  | _ => trivial

/-- A pass with hints that reads the test case as text. -/
def textPass : Pass Nat where
  repr := "TextPass".toList
  userVisibleName := "TextPass".toList
  methods := .hint
    { constantHints [] [] wholeFileBundle nil_not_mem_nil wholeFileBundle_typed with
      generateNew := fun _ tc _ => tc.readText.map fun _ => (wholeFileBundle, none)
      new_typed := by
        intro _ tc _ _ h
        cases hread : tc.readText with
        | error err =>
          rw [hread] at h
          cases h
        | ok text =>
          rw [hread] at h
          cases h
          exact wholeFileBundle_typed }

def undecodable : TestManager Unit Nat := .start (fun _ => .file [255]) () none 0

/-- The pass fails to read the byte, and `run_passes` returns. -/
def textRun : List (Event Unit Nat) :=
  .runPasses ⟨[⟨textPass, []⟩], false, [()]⟩ :: List.replicate 3 (.main {}) ++
    .main { dir := 1 } :: [.main {}, .init 1 fun _ => 0] ++ List.replicate 9 (.main {})

def afterText : TestManager Unit Nat := (runFrom (step nonemptyConfig) undecodable textRun).getD undecodable

theorem textRun_run : runFrom (step nonemptyConfig) undecodable textRun = some afterText := rfl

theorem unicode_contained_text : afterText.phase = .idle ∧
    afterText.phase ≠ .raised .unicodeDecodeError ∧ Contained nonemptyConfig afterText := by
  have halong : along (step nonemptyConfig) hintsOnly undecodable textRun := rfl
  have hrun : Run (step nonemptyConfig) TextReadable undecodable afterText :=
    (run_of_along textRun_run halong).mono fun _ _ h => textReadable_of_hintsOnly h
  obtain ⟨hall, _⟩ := unicode_contained (L := Nat) nonemptyConfig (fun _ => .file [255]) () none 0
  obtain ⟨hphase, hcontained⟩ := hall afterText hrun
  have hidle : afterText.phase = .idle := rfl
  exact ⟨hidle, hphase, hcontained (by rw [TestManager.Alive, hidle]; intro h; cases h)⟩

structure PeepState where
  pos : Nat := 0
  regex : Nat := 0

namespace PeepPass

/-- `advance`, for an argument with `lim` patterns. -/
def advance (lim : Nat) (tc : TestCase) (s : PeepState) : Except PyErr (Option PeepState) :=
  let s := if lim ≤ s.regex + 1 then { pos := s.pos + 1 } else { s with regex := s.regex + 1 }
  do
    let text ← tc.readText
    return if text.length ≤ s.pos then none else some s

/-- `transform`, where `rewrite` is the replacement of a pattern by the matcher. -/
def transform (rewrite : Str → PeepState → Option Str) (data : Bytes) (s : PeepState) :
    Except PyErr (PassResult × Option PeepState × Bytes) := do
  let prog ← (TestCase.file data).readText
  if prog.length < s.pos then return (.stop, some s, data)
  else
    match rewrite prog s with
    | some prog2 => return (.ok, some s, encode prog2)
    | none => return (.invalid, some s, data)

end PeepPass

/-- `PeepPass` with the argument `c`, which has one pattern. -/
def peepPass (rewrite : Str → PeepState → Option Str) : Pass PeepState where
  repr := "PeepPass::c".toList
  userVisibleName := "PeepPass::c".toList
  methods := .legacy
    { new := fun _ _ => .ok (some {})
      advance := fun _ => PeepPass.advance 1
      advanceOnSuccess := fun _ _ s _ => .ok (some s)
      transform := fun _ => PeepPass.transform rewrite
      realChunk := fun _ => 1 }

def notText : TestManager Unit PeepState := .start (fun _ => .file [255]) () none 0

/-- The first attempt of the pass is scheduled. The matcher, which finds nothing, is not asked. -/
def peepRun : List (Event Unit PeepState) :=
  .runPasses ⟨[⟨peepPass fun _ _ => none, []⟩], false, [()]⟩ :: List.replicate 3 (.main {}) ++
    .main { dir := 1 } :: [.main {}, .init 1 fun _ => 0] ++ List.replicate 7 (.main {}) ++
    [.main { dir := 2 }]

def afterPeep : TestManager Unit PeepState :=
  (runFrom (step nonemptyConfig) notText peepRun).getD notText

theorem peepRun_run : runFrom (step nonemptyConfig) notText peepRun = some afterPeep := rfl

/-- The pass reads its first text in `advance`. -/
theorem peep_escapes : Reach (step nonemptyConfig) notText afterPeep ∧
    afterPeep.phase = .raised .unicodeDecodeError :=
  ⟨runFrom_reach peepRun_run, rfl⟩

end Cvise
