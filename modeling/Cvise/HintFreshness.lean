import Cvise.Directories
import Cvise.RestartQueue

namespace Cvise
set_option autoImplicit true

variable {T L : Type}

def TestEnv.hintStates (env : TestEnv T L) : List HintState :=
  match env.pass, env.state with
  | _, some (.hint s) => [s]
  | none, some (.foldIn subStates) => subStates
  | _, _ => []

def HintState.hintPaths (s : HintState) : List HintPath := s.hintBundlePaths.map Prod.snd

/-- The hint files that a job reads. -/
def Job.hintPaths (j : Job T L) : List HintPath :=
  match j.work with
  | .init env => env.dependeeBundlePaths
  | .transform env => env.hintStates.flatMap (·.hintPaths)

/-- The hint file exists, and it was generated from what the current test case has on the disk. -/
def Stored (m : TestManager T L) (path : HintPath) : Prop :=
  ∃ files b, m.dirs path.1 = some ⟨some (m.disk m.currentTestCase), files⟩ ∧ (path.2, b) ∈ files

/-- The pass was initialized with what the current test case has on the disk. -/
structure Current (m : TestManager T L) (c : PassContext L) : Prop where
  root : ∃ d files, c.temporaryRoot = some d ∧
    m.dirs d = some ⟨some (m.disk m.currentTestCase), files⟩
  bundles : c.pass.isHintBased → ∀ e ∈ c.hintBundlePaths, c.temporaryRoot = some e.2.1 ∧
    Stored m e.2
  state : ∀ s, c.state = some (.hint s) → ∀ e ∈ s.hintBundlePaths, c.temporaryRoot = some e.2.1 ∧
    Stored m e.2

/-- The hint file belongs to a pass that will not be initialized again in this batch. -/
def Anchored (m : TestManager T L) (path : HintPath) : Prop :=
  ∃ i c, m.passContexts[i]? = some c ∧ c.stage = .enumerating ∧ i ∉ m.passRestartQueue ∧
    c.temporaryRoot = some path.1 ∧ Stored m path

/-- A job that initializes a pass, with the current test case. -/
structure InitJob (m : TestManager T L) (j : Job T L) (env : InitEnv T L) : Prop where
  testCase : env.testCase = m.currentTestCase
  pass : ∃ i c, j.passId = some i ∧ m.passContexts[i]? = some c ∧ c.pass = env.pass
  done : j.future = .done → ∃ files,
    m.dirs env.tmpDir = some ⟨some (m.disk m.currentTestCase), files⟩ ∧
      ∀ s, env.result = some (.hint s) → s.StoredIn env.pass env.tmpDir files

/-- What holds of the hints in a batch. -/
structure HintInv (m : TestManager T L) : Prop where
  current : ∀ i c, m.passContexts[i]? = some c → c.stage = .enumerating →
    c.state ≠ none ∨ HasConsumer m.passContexts i c.pass.outputHintTypes → Current m c
  initJobs : ∀ j ∈ m.jobs, ∀ env, j.work = .init env → InitJob m j env
  used : ∀ j ∈ m.jobs, ∀ path ∈ j.hintPaths, Anchored m path
  folds : m.interleaving → ∀ s ∈ m.foldingManager.foldingCandidates, ∀ path ∈ s.hintPaths,
    Anchored m path

/-- The bundles of a context are of the types that its pass declares, and an initialized pass takes
no input from itself. -/
structure ContextTyped (c : PassContext L) : Prop where
  bundles : c.pass.isHintBased → ∀ e ∈ c.hintBundlePaths, e.1 = [] ∨ e.1 ∈ c.pass.outputHintTypes
  inputs : c.stage ≠ .beforeInit → ∀ t ∈ c.pass.inputHintTypes, t ∉ c.pass.outputHintTypes

section
variable {m m' : TestManager T L} {c c' : PassContext L}

theorem Stored.transfer (h : Stored m path) (hdirs : m'.dirs path.1 = m.dirs path.1)
    (hdisk : m'.disk m'.currentTestCase = m.disk m.currentTestCase) : Stored m' path := by
  obtain ⟨files, b, hd, hb⟩ := h
  exact ⟨files, b, by rw [hdirs, hd, hdisk], hb⟩

theorem Current.transfer (h : Current m c) (hroot : c'.temporaryRoot = c.temporaryRoot)
    (hdirs : ∀ d, c.temporaryRoot = some d → m'.dirs d = m.dirs d)
    (hdisk : m'.disk m'.currentTestCase = m.disk m.currentTestCase) (hpass : c'.pass = c.pass)
    (hbundles : c'.hintBundlePaths = c.hintBundlePaths)
    (hstate : ∀ s', c'.state = some (.hint s') → ∃ s, c.state = some (.hint s) ∧
      s'.hintBundlePaths ⊆ s.hintBundlePaths) : Current m' c' := by
  apply Current.mk
  · obtain ⟨d, files, hd, hfiles⟩ := h.root
    exact ⟨d, files, hroot.trans hd, by rw [hdirs d hd, hfiles, hdisk]⟩
  · rw [hpass, hbundles, hroot]
    intro hbased e he
    obtain ⟨hd, hstored⟩ := h.bundles hbased e he
    exact ⟨hd, hstored.transfer (hdirs _ hd) hdisk⟩
  · intro s' hs' e he
    obtain ⟨s, hs, hsub⟩ := hstate s' hs'
    obtain ⟨hd, hstored⟩ := h.state s hs e (hsub he)
    exact ⟨hroot.trans hd, hstored.transfer (hdirs _ hd) hdisk⟩

theorem StoredIn.stored {s : HintState} (h : s.StoredIn p d files)
    (hd : m.dirs d = some ⟨some (m.disk m.currentTestCase), files⟩) (he : e ∈ s.hintBundlePaths) :
    d = e.2.1 ∧ Stored m e.2 := by
  have hdir : e.2.1 = d := (mem_hintBundlePaths.1 he).1.trans h.dir
  obtain ⟨b, hb⟩ := h.written e he
  exact ⟨hdir.symm, files, b, hdir ▸ hd, hb⟩

theorem InitJob.current (h : InitJob m j env) (hfuture : j.future = .done)
    (hd : m'.dirs env.tmpDir = m.dirs env.tmpDir)
    (hdisk : m'.disk m'.currentTestCase = m.disk m.currentTestCase) :
    Current m' (c.initialized env.result (some env.tmpDir)) := by
  obtain ⟨files, hfiles, hstored⟩ := h.done hfuture
  rw [← hd, ← hdisk] at hfiles
  have hstate : ∀ s, env.result = some (.hint s) → ∀ e ∈ s.hintBundlePaths,
      some env.tmpDir = some e.2.1 ∧ Stored m' e.2 := by
    intro s hs e he
    obtain ⟨hdir, hpath⟩ := StoredIn.stored (hstored s hs) hfiles he
    exact ⟨congrArg some hdir, hpath⟩
  apply Current.mk
  · exact ⟨env.tmpDir, files, rfl, hfiles⟩
  · intro hbased e he
    have hbased : c.pass.isHintBased = true := hbased
    simp only [PassContext.initialized, hbased, if_true] at he
    split at he
    · rename_i s hs
      exact hstate s hs e he
    · cases he
  · exact hstate

theorem InitEnv.run_stored {env : InitEnv T L}
    (h : env.run r seed tc = .ok (some (.hint s), files)) : s.StoredIn env.pass env.tmpDir files := by
  obtain ⟨deps, _, h⟩ := except_bind_ok.1 h
  split at h
  · split at h
    · cases h
    · exact Pass.new_stored h
  · exact Pass.advanceOnSuccess_stored h

end

section
variable [DecidableEq T] {cfg : Config T} {m m' : TestManager T L} {e : Event T L}

theorem Move.enters_batch (hmove : Move cfg m e m') (hk' : m'.phase.kind = .batch) :
    m.phase.kind = .batch ∨ m.phase = .outer ∧ m'.jobs = m.jobs ∧
      m'.passContexts = m.passContexts.map (·.atBatchStart) ∧
        (m'.interleaving → m'.foldingManager.foldingCandidates = []) := by
  cases hmove with
  | startBatch hp =>
    refine .inr ⟨hp, rfl, rfl, fun hinterleaving => ?_⟩
    exact congrArg FoldingManager.foldingCandidates (if_pos hinterleaving)
  | control hk => exact .inl (hk ▸ hk')
  | noTransform hp => exact .inl (by rw [hp]; rfl)
  | skipEmpty => exact .inl hk'
  | cacheHit => exact .inl hk'
  | init => exact .inl hk'
  | work => exact .inl hk'
  | initRun => exact .inl hk'
  | restart hp => exact .inl (by rw [hp]; rfl)
  | pop hp => exact .inl (by rw [hp]; rfl)
  | noFold hp => exact .inl (by rw [hp]; rfl)
  | fold hp => exact .inl (by rw [hp]; rfl)
  | transform hp => exact .inl (by rw [hp]; rfl)
  | cancelLost hp => exact .inl (by rw [hp]; rfl)
  | timedOut hp => exact .inl (by rw [hp]; rfl)
  | initialized hp => exact .inl (by rw [hp]; rfl)
  | stopped hp => exact .inl (by rw [hp]; rfl)
  | ignored hp => exact .inl (by rw [hp]; rfl)
  | accepted hp => exact .inl (by rw [hp]; rfl)
  | _ => cases hk'

theorem Move.in_batch (hmove : Move cfg m e m') (hk' : m'.phase.kind = .batch) :
    (m'.disk = m.disk ∧ m'.currentTestCase = m.currentTestCase) ∧
      m'.interleaving = m.interleaving := by
  constructor
  · rcases hmove.testCases with hsame | hne | hne
    · exact hsame
    · cases hne.symm.trans hk'
    · cases hne.symm.trans hk'
  · cases hmove with
    | call => cases hk'
    | _ => rfl

theorem Move.foldingCandidates (hmove : Move cfg m e m') (hk : m.phase.kind = .batch)
    (hs : s ∈ m'.foldingManager.foldingCandidates) : s ∈ m.foldingManager.foldingCandidates ∨
      ∃ j env, j ∈ m.jobs ∧ j.work = .transform env ∧ env.success ∧
        env.state = some (.hint s) := by
  cases hmove with
  | startBatch hp =>
    rw [hp] at hk
    cases hk
  | noFold _ hfm => exact .inl (hfm ▸ hs)
  | fold _ _ hprepare =>
    have hfm := congrArg Prod.snd hprepare
    simp only at hfm hs
    rw [← hfm, FoldingManager.maybePrepareFoldingJob_candidates] at hs
    exact .inl hs
  | ignored _ _ _ hfm => exact .inl (hfm ▸ hs)
  | accepted _ hj hwork hsuccess =>
    simp only at hs
    split at hs
    · rcases FoldingManager.onTransformJobSuccess_candidates.1 hs with hs | hs
      · exact .inl hs
      · exact .inr ⟨_, _, hj, hwork, hsuccess, hs⟩
    · exact .inl hs
  | _ => exact .inl hs

theorem Move.root_dirs {i : Nat} {c c' : PassContext L} (hmove : Move cfg m e m') (howned : DirsOwned m)
    (hc : m.passContexts[i]? = some c) (hd : c.temporaryRoot = some d)
    (hc' : m'.passContexts[i]? = some c') (hd' : c'.temporaryRoot = some d) :
    m'.dirs d = m.dirs d := by
  rcases hmove.dirs_owned (o := .pass i) howned ⟨c, hc, hd⟩ ⟨c', hc', hd'⟩ with heq | ⟨_, _, _, ho, _⟩
  · exact heq
  · cases ho

end

section
variable {m m' : TestManager T L} {c c' : PassContext L}

theorem Pass.transform_hint {p : Pass L} {x : Transformed L}
    (h : p.transform r seed original copied state = .ok x) (hs : x.state = some (.hint s)) :
    state = some (.hint s) := by
  unfold Pass.transform at h
  split at h
  · split at h
    · cases h
      cases hs
    · obtain ⟨applied, _, h⟩ := except_bind_ok.1 h
      cases applied with
      | none =>
        cases h
        cases hs
      | some result =>
        cases h
        exact hs
  · split at h
    · obtain ⟨⟨result, s', data'⟩, _, h⟩ := except_bind_ok.1 h
      cases h
      obtain ⟨_, _, heq⟩ := Option.map_eq_some_iff.1 hs
      cases heq
    · cases h
  · cases h

theorem foldTransform_state {x : Transformed L} (h : foldTransform r original subStates = .ok x) :
    x.state = none ∨ ∃ s, x.state = some (.foldOut s) := by
  obtain ⟨applied, _, h⟩ := except_bind_ok.1 h
  cases applied with
  | none =>
    cases h
    exact .inl rfl
  | some result =>
    cases h
    exact .inr ⟨_, rfl⟩

theorem TestEnv.transformed_hintStates {env : TestEnv T L} {x : Transformed L}
    (h : env.callTransform r seed original = .ok x) :
    TestEnv.hintStates { env with state := x.state } ⊆ env.hintStates := by
  rw [TestEnv.callTransform] at h
  split at h
  · rename_i p hp
    intro s hs
    rw [TestEnv.hintStates, hp] at hs
    split at hs
    · rename_i s' hs'
      have hstate := Pass.transform_hint h hs'
      rw [TestEnv.hintStates, hstate]
      exact hs
    · rename_i heq _
      cases heq
    · cases hs
  · rename_i hp
    split at h
    · rw [TestEnv.hintStates, hp]
      rcases foldTransform_state h with hnone | ⟨s, hs⟩
      · rw [hnone]
        exact List.nil_subset _
      · rw [hs]
        exact List.nil_subset _
    · cases h

namespace ContextTyped
variable {c c' : PassContext L}

theorem create (p : Pass L) (b : Bool) : ContextTyped { PassContext.create p with enabled := b } where
  bundles _ _ he := absurd he List.not_mem_nil
  inputs h := absurd rfl h

theorem evolves {i : Nat} (h : ContextTyped c) (hc : m.passContexts[i]? = some c)
    (hinit : ∀ j ∈ m.jobs, ∀ env, j.work = .init env → InitJob m j env)
    (hevolves : c.Evolves m m' i c') : ContextTyped c' := by
  cases hevolves with
  | keeps hkeeps =>
    refine ⟨?_, ?_⟩
    · rw [hkeeps.pass, hkeeps.bundles]
      exact h.bundles
    · rw [hkeeps.pass, hkeeps.stage]
      exact h.inputs
  | restaged hst _ hready =>
    refine ⟨h.bundles, fun hstage t ht hout => ?_⟩
    by_cases hold : c.stage = .beforeInit
    · have hcan := hready hstage (by rw [hold]; nofun)
      have ht := (PassContext.canInitNow_iff.1 hcan).2.2.2 t ht
      have hnow := (mem_getFullyInitializedHintTypes.1 ht).2 c (List.mem_of_getElem? hc) hout
      cases hold.symm.trans hnow
    · exact h.inputs hold t ht hout
  | initialized hj hfuture hwork hi hstage =>
    have hjob := hinit _ hj _ hwork
    obtain ⟨i', c₀, hi', hc₀, hpass⟩ := hjob.pass
    cases hi.symm.trans hi'
    cases hc.symm.trans hc₀
    refine ⟨fun hbased e he => ?_, fun _ => h.inputs (by rw [hstage]; nofun)⟩
    have hbased : c.pass.isHintBased = true := hbased
    simp only [PassContext.initialized, hbased, if_true] at he ⊢
    split at he
    · rename_i s hs
      obtain ⟨_, _, hstored⟩ := hjob.done hfuture
      exact hpass ▸ (hstored s hs).typed e he
    · cases he
  | atBatchStart =>
    refine ⟨h.bundles, fun hstage => h.inputs fun hold => hstage ?_⟩
    rw [PassContext.atBatchStart, hold]
    rfl
  | afterResult =>
    refine ⟨h.bundles, fun hstage => h.inputs fun hold => hstage ?_⟩
    simp [PassContext.afterResult, hold]

end ContextTyped

end

section
variable [DecidableEq T] {cfg : Config T} {m m' : TestManager T L} {e : Event T L}

theorem JobStep.hintPaths (h : JobStep cfg m e j j') : j'.hintPaths ⊆ j.hintPaths := by
  have htransform : ∀ {env env' : TestEnv T L}, env'.hintStates ⊆ env.hintStates →
      env'.hintStates.flatMap (·.hintPaths) ⊆ env.hintStates.flatMap (·.hintPaths) := by
    intro env env' hsub path hpath
    obtain ⟨s, hs, hpath⟩ := List.mem_flatMap.1 hpath
    exact List.mem_flatMap.2 ⟨s, hsub hs, hpath⟩
  cases h with
  | copy hwork =>
    simp only [Job.hintPaths, hwork]
    exact htransform (List.Subset.refl _)
  | transform hwork _ _ hrun =>
    simp only [Job.hintPaths, hwork]
    apply htransform
    rcases TestEnv.runTransform_cases hrun with ⟨x, hx, rfl, _⟩ | ⟨_, rfl | rfl⟩
    · exact TestEnv.transformed_hintStates hx
    · exact List.Subset.refl _
    · exact List.Subset.refl _
  | test hwork hresult hexit =>
    rename_i env
    obtain ⟨folder, originalSize, newSize, heq⟩ := env.runTest_eq cfg.test (m.disk env.testCase)
    simp only [Job.hintPaths, hwork]
    apply htransform
    rw [heq]
    exact List.Subset.refl _
  | ended => exact List.Subset.refl _

/-- A step within a batch, with what is known of the state before. -/
structure BatchStep (cfg : Config T) (m : TestManager T L) (e : Event T L) (m' : TestManager T L) :
    Prop where
  move : Move cfg m e m'
  before : m.phase.kind = .batch
  after : m'.phase.kind = .batch
  owned : DirsOwned m
  ordered : JobsOrdered m
  queue : QueueInv m

namespace BatchStep
variable {c c' : PassContext L} {i : Nat}

theorem inside (h : BatchStep cfg m e m') : m.phase.kind ≠ .outside := by
  rw [h.before]
  nofun

theorem disk (h : BatchStep cfg m e m') : m'.disk m'.currentTestCase = m.disk m.currentTestCase := by
  obtain ⟨⟨hdisk, hcur⟩, _⟩ := h.move.in_batch h.after
  rw [hdisk, hcur]

theorem not_starts (h : BatchStep cfg m e m') : ¬ m.phase = .outer := by
  intro hp
  have hk := h.before
  rw [hp] at hk
  cases hk

theorem not_after (h : BatchStep cfg m e m') : ¬ m.phase = .afterBatch := by
  intro hp
  have hk := h.before
  rw [hp] at hk
  cases hk

theorem queue_subset (h : BatchStep cfg m e m') : m'.passRestartQueue ⊆ m.passRestartQueue := by
  rcases h.move.passRestartQueue with heq | heq | ⟨i, heq⟩ | hstart
  · exact heq ▸ List.Subset.refl _
  · exact heq ▸ List.nil_subset _
  · exact heq ▸ List.subset_cons_self i _
  · exact absurd hstart.phase h.not_starts

theorem keeps (h : BatchStep cfg m e m') (hc : m.passContexts[i]? = some c)
    (hstage : c.stage = .enumerating) (hi : i ∉ m.passRestartQueue) :
    ∃ c', m'.passContexts[i]? = some c' ∧ c.Keeps (m.disk m.currentTestCase) c' := by
  obtain ⟨c', hc', hevolves⟩ := h.move.evolves h.inside hc
  cases hevolves with
  | keeps hkeeps => exact ⟨c', hc', hkeeps⟩
  | restaged _ hqueue => exact absurd (hqueue hstage ▸ List.mem_cons_self) hi
  | initialized _ _ _ _ hstage' => cases hstage.symm.trans hstage'
  | atBatchStart hp => exact absurd hp h.not_starts
  | afterResult hp => exact absurd hp h.not_after

theorem anchored_dirs (h : BatchStep cfg m e m') (hanchored : Anchored m path) :
    m'.dirs path.1 = m.dirs path.1 := by
  obtain ⟨i, c, hc, hstage, hi, hroot, _⟩ := hanchored
  obtain ⟨c', hc', hkeeps⟩ := h.keeps hc hstage hi
  exact h.move.root_dirs h.owned hc hroot hc' (hkeeps.root.trans hroot)

theorem anchored (h : BatchStep cfg m e m') (hanchored : Anchored m path) : Anchored m' path := by
  have hdirs := h.anchored_dirs hanchored
  obtain ⟨i, c, hc, hstage, hi, hroot, hstored⟩ := hanchored
  obtain ⟨c', hc', hkeeps⟩ := h.keeps hc hstage hi
  exact ⟨i, c', hc', hkeeps.stage.trans hstage, fun hi' => hi (h.queue_subset hi'),
    hkeeps.root.trans hroot, hstored.transfer hdirs h.disk⟩

theorem pass (h : BatchStep cfg m e m') (hc : m.passContexts[i]? = some c) :
    ∃ c', m'.passContexts[i]? = some c' ∧ c'.pass = c.pass := by
  obtain ⟨c', hc', hevolves⟩ := h.move.evolves h.inside hc
  exact ⟨c', hc', hevolves.frame.1⟩

theorem done_dirs (h : BatchStep cfg m e m') (hj : j ∈ m.jobs) (hj' : j ∈ m'.jobs)
    (hfuture : j.future = .done) (hd : j.temporaryFolder = some d) : m'.dirs d = m.dirs d := by
  have hown : ∀ {m : TestManager T L}, j ∈ m.jobs → Owns m (.job j.order) d :=
    fun hj => ⟨j, hj, rfl, hd⟩
  rcases h.move.dirs_owned h.owned (hown hj) (hown hj') with heq | ⟨k, hk, hpending, ho, _⟩
  · exact heq
  · cases h.ordered.inj hj hk (Owner.job.inj ho)
    cases hfuture.symm.trans hpending

/-- The test case and the pass of a job are still those of the manager. -/
theorem initJob_frame (h : BatchStep cfg m e m') (hjob : InitJob m j env) :
    env.testCase = m'.currentTestCase ∧
      ∃ i c, j.passId = some i ∧ m'.passContexts[i]? = some c ∧ c.pass = env.pass := by
  obtain ⟨i, c, hi, hc, hpass⟩ := hjob.pass
  obtain ⟨c', hc', heq⟩ := h.pass hc
  exact ⟨hjob.testCase.trans (h.move.in_batch h.after).1.2.symm, i, c', hi, hc', heq.trans hpass⟩

theorem initJob (h : BatchStep cfg m e m') (hjob : InitJob m j env) (hj : j ∈ m.jobs)
    (hj' : j ∈ m'.jobs) (hwork : j.work = .init env) : InitJob m' j env := by
  obtain ⟨hcur, hpass⟩ := h.initJob_frame hjob
  refine ⟨hcur, hpass, fun hfuture => ?_⟩
  obtain ⟨files, hfiles, hstored⟩ := hjob.done hfuture
  have hdirs := h.done_dirs hj hj' hfuture (h.owned.tmpDir j hj env hwork)
  exact ⟨files, by rw [hdirs, hfiles, h.disk], hstored⟩

theorem initJobs (h : BatchStep cfg m e m')
    (hjobs : ∀ j ∈ m.jobs, ∀ env, j.work = .init env → InitJob m j env) :
    ∀ j ∈ m'.jobs, ∀ env, j.work = .init env → InitJob m' j env := by
  intro j' hj' env hwork
  cases h.move.mem_jobs hj' with
  | kept hj => exact h.initJob (hjobs j' hj env hwork) hj hj' hwork
  | step hj hpending hstep =>
    cases hstep with
    | ended hfuture =>
      obtain ⟨hcur, hpass⟩ := h.initJob_frame (hjobs _ hj env hwork)
      refine ⟨hcur, hpass, fun hdone => ?_⟩
      have htransform := hfuture hdone
      rw [Job.isTransform, hwork] at htransform
      cases htransform
    | _ => cases hwork
  | initRun hj hpending hwork' hrun heq hdirs =>
    subst heq
    cases hwork
    have hjob := hjobs _ hj _ hwork'
    obtain ⟨hcur, hpass⟩ := h.initJob_frame hjob
    refine ⟨hcur, hpass, fun _ => ⟨_, by rw [hdirs, hjob.testCase, h.disk], ?_⟩⟩
    rintro s rfl
    exact InitEnv.run_stored hrun
  | scheduled hnew =>
    cases hnew with
    | init hc =>
      cases hwork
      obtain ⟨c', hc', heq⟩ := h.pass hc
      exact ⟨(h.move.in_batch h.after).1.2.symm, ⟨_, c', rfl, hc', heq⟩, fun h => by cases h⟩
    | _ => cases hwork

omit [DecidableEq T] in
/-- What a pass that can be initialized takes as an input has a consumer. -/
theorem hasConsumer (hc : m.passContexts[i]? = some c)
    (hcan : PassContext.canInitNow { c with stage := .beforeInit } ready)
    (ht : t ∈ c.pass.inputHintTypes) (hout : t ∈ types) (hne : i ≠ k) :
    HasConsumer m.passContexts k types := by
  obtain ⟨henabled, hdefunct, _, _⟩ := PassContext.canInitNow_iff.1 hcan
  refine ⟨i, c, hne, hc, ?_⟩
  simp only [PassContext.consumes, Bool.and_eq_true, Bool.not_eq_true', List.any_eq_true,
    decide_eq_true_eq]
  exact ⟨⟨henabled, Bool.eq_false_iff.2 hdefunct⟩, t, ht, hout⟩

theorem not_queued (h : BatchStep cfg m e m') (hc : m.passContexts[k]? = some c)
    (hconsumer : HasConsumer m.passContexts k c.pass.outputHintTypes) :
    k ∉ m.passRestartQueue := by
  intro hqueue
  obtain ⟨c', hc', _, _, _, hno⟩ := (h.queue.waiting k hqueue).context
  cases hc.symm.trans hc'
  exact hno hconsumer

/-- A bundle handed to a pass comes from one that is current and that nobody restarts. -/
theorem dependee_anchored (h : BatchStep cfg m e m') (hinv : HintInv m)
    (htyped : ∀ c ∈ m.passContexts, ContextTyped c) (hc : m.passContexts[i]? = some c)
    (hcan : PassContext.canInitNow { c with stage := .beforeInit }
      (getFullyInitializedHintTypes m.passContexts))
    (hpath : path ∈ dependeeBundlePaths (m.passContexts.set i { c with stage := .beforeInit })
      c.pass.inputHintTypes) : Anchored m path := by
  obtain ⟨o, ho, hpath⟩ := List.mem_flatMap.1 hpath
  split at hpath
  · rename_i hready
    obtain ⟨hbased, hstage⟩ := hready
    obtain ⟨⟨type, path'⟩, he, rfl⟩ := List.mem_map.1 hpath
    obtain ⟨he, htype⟩ := List.mem_filter.1 he
    have htype : type ∈ c.pass.inputHintTypes := of_decide_eq_true htype
    obtain ⟨k, hk⟩ := List.mem_iff_getElem?.1 ho
    have hne : i ≠ k := by
      rintro rfl
      rw [List.getElem?_set_self (List.getElem?_eq_some_iff.1 hc).1] at hk
      cases hk
      cases hstage
    rw [List.getElem?_set_ne hne] at hk
    have hout : type ∈ o.pass.outputHintTypes := by
      rcases (htyped o (List.mem_of_getElem? hk)).bundles hbased _ he with hnil | hout
      · exact absurd (hnil ▸ htype) c.pass.inputs_typed
      · exact hout
    have hconsumer := hasConsumer hc hcan htype hout hne
    obtain ⟨hroot, hstored⟩ := (hinv.current k o hk hstage (.inr hconsumer)).bundles hbased _ he
    exact ⟨k, o, hk, hstage, h.not_queued hk hconsumer, hroot, hstored⟩
  · cases hpath

theorem transform_anchored (h : BatchStep cfg m e m') (hinv : HintInv m)
    (hc' : (skipSubsets rnd m.passContexts)[i]? = some c') (hcan : c'.canTransformNow)
    (hs : c'.state = some (.hint s)) (hpath : path ∈ s.hintPaths) : Anchored m path := by
  obtain ⟨c, hc, hkeeps⟩ := skipSubsets_from (m.disk m.currentTestCase) hc'
  have hstate : c.state ≠ none := fun hnone => by cases (hkeeps.idle hnone).symm.trans hs
  have hstage : c.stage = .enumerating := by
    simp only [PassContext.canTransformNow, Bool.and_eq_true, beq_iff_eq] at hcan
    exact hkeeps.stage.symm.trans hcan.1.2
  obtain ⟨s₀, hs₀, hsub⟩ := hkeeps.bundlePaths hs
  obtain ⟨e, he, rfl⟩ := List.mem_map.1 hpath
  obtain ⟨hroot, hstored⟩ := (hinv.current i c hc hstage (.inl hstate)).state s₀ hs₀ e (hsub he)
  refine ⟨i, c, hc, hstage, fun hqueue => ?_, hroot, hstored⟩
  obtain ⟨c₀, hc₀, _, hnone, _⟩ := (h.queue.waiting i hqueue).context
  cases hc.symm.trans hc₀
  exact hstate hnone

theorem used (h : BatchStep cfg m e m') (hinv : HintInv m)
    (htyped : ∀ c ∈ m.passContexts, ContextTyped c) :
    ∀ j ∈ m'.jobs, ∀ path ∈ j.hintPaths, Anchored m' path := by
  intro j' hj' path hpath
  apply h.anchored
  cases h.move.mem_jobs hj' with
  | kept hj => exact hinv.used j' hj path hpath
  | step hj _ hstep => exact hinv.used _ hj path (hstep.hintPaths hpath)
  | initRun hj _ hwork _ heq =>
    subst heq
    apply hinv.used _ hj path
    rw [Job.hintPaths, hwork]
    exact hpath
  | scheduled hnew =>
    cases hnew with
    | init hc _ hcan => exact h.dependee_anchored hinv htyped hc hcan hpath
    | transform hc hcan hs =>
      obtain ⟨s, hs', hpath'⟩ := List.mem_flatMap.1 hpath
      simp only [TestEnv.hintStates] at hs'
      split at hs'
      · rename_i heq
        cases heq
        cases List.mem_singleton.1 hs'
        exact h.transform_anchored hinv hc hcan hs hpath'
      · rename_i hp _
        cases hp
      · cases hs'
    | fold hinterleaving hsub =>
      obtain ⟨s, hs, hpath⟩ := List.mem_flatMap.1 hpath
      exact hinv.folds hinterleaving s (hsub s hs) path hpath

theorem current_keeps (h : BatchStep cfg m e m') (hcurrent : Current m c)
    (hc : m.passContexts[i]? = some c) (hc' : m'.passContexts[i]? = some c')
    (hkeeps : c.Keeps (m.disk m.currentTestCase) c') : Current m' c' := by
  apply hcurrent.transfer hkeeps.root ?_ h.disk hkeeps.pass hkeeps.bundles
  · exact fun s' hs' => hkeeps.bundlePaths hs'
  · exact fun d hd => h.move.root_dirs h.owned hc hd hc' (hkeeps.root.trans hd)

theorem current (h : BatchStep cfg m e m') (hinv : HintInv m) (hc' : m'.passContexts[i]? = some c')
    (hstage : c'.stage = .enumerating)
    (hneeded : c'.state ≠ none ∨ HasConsumer m'.passContexts i c'.pass.outputHintTypes) :
    Current m' c' := by
  obtain ⟨c, hc, hevolves⟩ := h.move.evolves_from h.inside hc'
  cases hevolves with
  | keeps hkeeps =>
    have hold : Current m c := by
      apply hinv.current i c hc (hkeeps.stage.symm.trans hstage)
      rcases hneeded with hstate | hconsumer
      · exact .inl fun hnone => hstate (hkeeps.idle hnone)
      · exact .inr (hkeeps.pass ▸ h.move.hasConsumer h.inside hconsumer)
    exact h.current_keeps hold hc hc' hkeeps
  | restaged hst => exact absurd hstage hst
  | initialized hj hfuture hwork hi hstage' hjobs hdirs =>
    rename_i j env
    have hfolder := h.owned.tmpDir j hj env hwork
    rw [hfolder]
    refine (hinv.initJobs j hj env hwork).current hfuture ?_ h.disk
    have hne : env.tmpDir ∉ c.temporaryRoot.toList := fun hroot =>
      h.owned.apart hc (Option.mem_toList.1 hroot) hj hfolder
    rw [hdirs]
    exact if_neg hne
  | atBatchStart hp => exact absurd hp h.not_starts
  | afterResult hp => exact absurd hp h.not_after

theorem folds (h : BatchStep cfg m e m') (hinv : HintInv m) (hinterleaving : m'.interleaving) :
    ∀ s ∈ m'.foldingManager.foldingCandidates, ∀ path ∈ s.hintPaths, Anchored m' path := by
  intro s hs path hpath
  rw [(h.move.in_batch h.after).2] at hinterleaving
  apply h.anchored
  rcases h.move.foldingCandidates h.before hs with hold | ⟨j, env, hj, hwork, _, hstate⟩
  · exact hinv.folds hinterleaving s hold path hpath
  · apply hinv.used j hj path
    rw [Job.hintPaths, hwork]
    refine List.mem_flatMap.2 ⟨s, ?_, hpath⟩
    simp [TestEnv.hintStates, hstate]

theorem hintInv (h : BatchStep cfg m e m') (hinv : HintInv m)
    (htyped : ∀ c ∈ m.passContexts, ContextTyped c) : HintInv m' where
  current _ _ hc' hstage hneeded := h.current hinv hc' hstage hneeded
  initJobs := h.initJobs hinv.initJobs
  used := h.used hinv htyped
  folds := h.folds hinv

end BatchStep

/-- The contexts are typed, and in a batch the hints are those of the current contents. -/
structure FreshInv (m : TestManager T L) : Prop where
  typed : ∀ c ∈ m.passContexts, ContextTyped c
  batch : m.phase.kind = .batch → HintInv m

namespace FreshInv

theorem typed_move (h : FreshInv m) (hphase : PhaseInv cfg m) (hmove : Move cfg m e m') :
    ∀ c ∈ m'.passContexts, ContextTyped c := by
  intro c' hc'
  have hinit : ∀ j ∈ m.jobs, ∀ env, j.work = .init env → InitJob m j env := by
    intro j hj env hwork
    by_cases hk : m.phase.kind = .batch
    · exact (h.batch hk).initJobs j hj env hwork
    · rw [hphase.jobs hk] at hj
      cases hj
  by_cases hk : m.phase.kind = .outside
  · cases hmove.outside hk with
    | same heq => exact h.typed c' (heq ▸ hc')
    | opened hcontexts =>
      obtain ⟨p, b, rfl⟩ := hcontexts c' hc'
      exact .create p b
    | closed heq =>
      obtain ⟨c, hc, rfl⟩ := List.mem_map.1 (heq ▸ hc')
      exact ⟨(h.typed c hc).bundles, (h.typed c hc).inputs⟩
  · obtain ⟨i, hi⟩ := List.mem_iff_getElem?.1 hc'
    obtain ⟨c, hc, hevolves⟩ := hmove.evolves_from hk hi
    exact (h.typed c (List.mem_of_getElem? hc)).evolves hc hinit hevolves

/-- A batch starts with passes that are not needed or that will be initialized. -/
theorem start_batch (hphase : PhaseInv cfg m) (hqueue : QueueInv m) (hmove : Move cfg m e m')
    (hp : m.phase = .outer) (hjobs : m'.jobs = m.jobs)
    (hcontexts : m'.passContexts = m.passContexts.map (·.atBatchStart))
    (hfolds : m'.interleaving → m'.foldingManager.foldingCandidates = []) : HintInv m' := by
  have hnone : m'.jobs = [] := hjobs.trans (hphase.jobs (by rw [hp]; nofun))
  have hinside : m.phase.kind ≠ .outside := by
    rw [hp]
    nofun
  apply HintInv.mk
  · intro i c' hc' hstage hneeded
    rw [hcontexts, List.getElem?_map] at hc'
    obtain ⟨c, hc, rfl⟩ := Option.map_eq_some_iff.1 hc'
    obtain ⟨hstate, hconsumer⟩ := hqueue.settled (.inl hp) i c hc (atBatchStart_enumerating.1 hstage)
    rcases hneeded with hstate' | hconsumer'
    · exact absurd hstate hstate'
    · exact absurd (hmove.hasConsumer hinside hconsumer') hconsumer
  · rw [hnone]
    exact fun j hj => absurd hj List.not_mem_nil
  · rw [hnone]
    exact fun j hj => absurd hj List.not_mem_nil
  · intro hinterleaving
    rw [hfolds hinterleaving]
    exact fun s hs => absurd hs List.not_mem_nil

theorem of_run (h : Run (step cfg) C (TestManager.start disk t name n : TestManager T L) m)
    (halive : m.Alive) : FreshInv m := by
  apply move_invariant h halive
  · exact ⟨fun c hc => absurd hc List.not_mem_nil, nofun⟩
  · intro u e v hreach hu hinv _ hmove
    have hphase := phaseInv_of_run hreach hu
    have hqueue := QueueInv.of_run hreach hu
    refine ⟨hinv.typed_move hphase hmove, fun hk' => ?_⟩
    rcases hmove.enters_batch hk' with hk | ⟨hp, hjobs, hcontexts, hfolds⟩
    · have hstep : BatchStep cfg u e v :=
        ⟨hmove, hk, hk', DirsOwned.of_run hreach hu, JobsOrdered.of_run hreach hu, hqueue⟩
      exact hstep.hintInv (hinv.batch hk) hinv.typed
    · exact start_batch hphase hqueue hmove hp hjobs hcontexts hfolds

end FreshInv

theorem batchStep_of_run (h : Run (step cfg) C (TestManager.start disk t name n : TestManager T L) m)
    (halive : m.Alive) (hmove : Move cfg m e m') (hj : j ∈ m'.jobs) : BatchStep cfg m e m' := by
  have hphase := phaseInv_of_run h halive
  have hafter : m'.phase.kind = .batch := by
    by_contra hne
    rw [(hphase.move hmove).jobs hne] at hj
    cases hj
  refine ⟨hmove, ?_, hafter, DirsOwned.of_run h halive, JobsOrdered.of_run h halive,
    QueueInv.of_run h halive⟩
  rcases hmove.enters_batch hafter with hk | ⟨hp, hjobs, _⟩
  · exact hk
  · rw [hjobs, hphase.jobs (by rw [hp]; nofun)] at hj
    cases hj

end

end Cvise
