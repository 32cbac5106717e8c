import Cvise.DependeeBundles

namespace Cvise
set_option autoImplicit true

variable {T L : Type}

/-- No pass can be initialized with the hint types that are ready now. -/
def NoInit (contexts : List (PassContext L)) : Prop :=
  ∀ c ∈ contexts, ¬ c.canInitNow (getFullyInitializedHintTypes contexts)

/-- No pass is left that can start. -/
def Exhausted (contexts : List (PassContext L)) : Prop :=
  NoInit contexts ∧ ∀ c ∈ contexts, ¬ c.canTransformNow

/-- The steps of `maybe_schedule_job` after the first one. -/
def Phase.pastInit : Phase → Bool
  | .restarting _ => true
  | .folding _ => true
  | .transforming _ => true
  | _ => false

/-- `run_parallel_tests` has left its loop. -/
def Phase.pastLoop : Phase → Bool
  | .batchEnd => true
  | .afterBatch => true
  | _ => false

/-- The hint types that the loop of `run_parallel_tests` is going to be tested with. -/
def Phase.polled : Phase → Option (List Bytes)
  | .loop ready => some ready
  | .waiting ready => some ready
  | .completing ready _ => some ready
  | _ => none

structure LoopInv (m : TestManager T L) : Prop where
  noInit : m.phase.pastInit → NoInit m.passContexts
  polled : ∀ ready, m.phase.polled = some ready → m.jobs = [] → m.successCandidate = none →
    (∃ c ∈ m.passContexts, c.canStartJobNow ready) ∨ NoInit m.passContexts
  exhausted : m.phase.pastLoop → m.successCandidate = none → Exhausted m.passContexts

def PassContext.waits (c : PassContext L) : Bool :=
  c.enabled && !c.defunct && c.stage == .beforeInit

/-- Whether the pass of the job can transform when the job has ended. -/
def TestManager.goesOn [DecidableEq T] (cfg : Config T) (m : TestManager T L) (e : Event T L)
    (j : Job T L) (c : PassContext L) : Bool :=
  match j.work, j.future with
  | .init env, .done => c.enabled && !c.defunct && env.result.isSome
  | .transform _, .done => c.canTransformNow && !m.stops cfg e j
  | _, _ => c.timedOut.canTransformNow

/-- When the job has ended, all passes are initialized that output the hint type. -/
structure InitializedWith (m : TestManager T L) (j : Job T L) (t : Bytes) : Prop where
  output : ∃ c ∈ m.passContexts, t ∈ c.pass.outputHintTypes
  initialized : ∀ i c, m.passContexts[i]? = some c → t ∈ c.pass.outputHintTypes →
    c.stage = .enumerating ∨ j.isTransform = false ∧ j.future = .done ∧ j.passId = some i

/-- The last running job of a batch ends with nothing left to transform, and the hint types that a
pass waits for are all initialized with it. They were not at the start of the batch, as `ready` says,
and no other pass waits only for types that were. -/
structure Overlooks [DecidableEq T] (cfg : Config T) (m : TestManager T L) (e : Event T L)
    (ready : List Bytes) (j : Job T L) : Prop where
  phase : ∃ todo, m.phase = .completing ready (j.order :: todo)
  running : j ∈ m.jobs
  last : ∀ k ∈ m.jobs, k.order = j.order
  ended : j.future ≠ .pending
  noCandidate : m.successCandidate = none ∧ m.accepts cfg e j = false
  idle : ∀ i c, m.passContexts[i]? = some c →
    if j.passId = some i then m.goesOn cfg e j c = false else c.canTransformNow = false
  late : ∀ i c, m.passContexts[i]? = some c → j.passId ≠ some i → c.waits →
    ∃ t ∈ c.pass.inputHintTypes, t ∉ ready
  missed : ∃ c ∈ m.passContexts, c.waits ∧ ∀ t ∈ c.pass.inputHintTypes, InitializedWith m j t

/-- The condition on a step. -/
def NoneOverlooked [DecidableEq T] (cfg : Config T) (m : TestManager T L) (e : Event T L) : Prop :=
  ∀ ready j, ¬ Overlooks cfg m e ready j

section
variable {contexts : List (PassContext L)} {c c' : PassContext L}

/-- A context that leaves `ENUMERATING` takes its types away from those that are ready. -/
theorem ready_of_set (hc : contexts[i]? = some c)
    (h : t ∈ getFullyInitializedHintTypes (contexts.set i { c with stage := .beforeInit })) :
    t ∈ getFullyInitializedHintTypes contexts := by
  obtain ⟨⟨o, ho, hout⟩, hall⟩ := mem_getFullyInitializedHintTypes.1 h
  have hset : { c with stage := .beforeInit } ∈ contexts.set i { c with stage := .beforeInit } :=
    List.mem_set (List.getElem?_eq_some_iff.1 hc).1 _
  have hnot : t ∉ c.pass.outputHintTypes := fun hmem => nomatch hall _ hset hmem
  have hold : ∀ o ∈ contexts, t ∈ o.pass.outputHintTypes →
      o ∈ contexts.set i { c with stage := .beforeInit } := by
    intro o ho hout
    obtain ⟨k, hk⟩ := List.mem_iff_getElem?.1 ho
    apply List.mem_iff_getElem?.2 ⟨k, _⟩
    rw [List.getElem?_set_ne, hk]
    rintro rfl
    cases hc.symm.trans hk
    exact hnot hout
  apply mem_getFullyInitializedHintTypes.2
  constructor
  · rcases List.mem_or_eq_of_mem_set ho with ho | rfl
    · exact ⟨o, ho, hout⟩
    · exact absurd hout hnot
  · exact fun o ho hout => hall o (hold o ho hout) hout

theorem canInitNow_waits :
    c.canInitNow ready ↔ c.waits ∧ ∀ t ∈ c.pass.inputHintTypes, t ∈ ready := by
  rw [PassContext.canInitNow, PassContext.waits, Bool.and_eq_true, List.all_eq_true]
  simp only [decide_eq_true_eq]

theorem canInitNow_mono (h : c.canInitNow ready) (hsub : ∀ t ∈ ready, t ∈ ready') :
    c.canInitNow ready' := by
  obtain ⟨henabled, hdefunct, hstage, hinputs⟩ := PassContext.canInitNow_iff.1 h
  exact PassContext.canInitNow_iff.2 ⟨henabled, hdefunct, hstage, fun t ht => hsub t (hinputs t ht)⟩

/-- A pass that is taken from the restart queue in vain makes no pass startable. -/
theorem NoInit.pop (h : NoInit contexts) (hc : contexts[i]? = some c)
    (hcan : ¬ PassContext.canInitNow { c with stage := .beforeInit }
      (getFullyInitializedHintTypes contexts)) :
    NoInit (contexts.set i { c with stage := .beforeInit }) := by
  intro o ho hnow
  have hbefore := canInitNow_mono hnow fun t => ready_of_set hc
  rcases List.mem_or_eq_of_mem_set ho with ho | rfl
  · exact h o ho hbefore
  · exact hcan hbefore

theorem skipped_same (c : PassContext L) (rnd : Nat → Nat) (c' : PassContext L)
    (h : c' = if c.canTransformNow then c.advanceWhileSubsetOfSucceeded rnd else c) :
    c'.pass = c.pass ∧ c'.stage = c.stage ∧ c'.enabled = c.enabled ∧ c'.defunct = c.defunct := by
  subst h
  split
  · unfold PassContext.advanceWhileSubsetOfSucceeded
    split
    · exact ⟨rfl, rfl, rfl, rfl⟩
    · exact ⟨rfl, rfl, rfl, rfl⟩
  · exact ⟨rfl, rfl, rfl, rfl⟩

theorem NoInit.skipSubsets (h : NoInit contexts) (rnd : Nat → Nat → Nat) :
    NoInit (skipSubsets rnd contexts) := by
  have hready : ∀ t ∈ getFullyInitializedHintTypes (Cvise.skipSubsets rnd contexts),
      t ∈ getFullyInitializedHintTypes contexts := by
    intro t ht
    obtain ⟨⟨o', ho', hout⟩, hall⟩ := mem_getFullyInitializedHintTypes.1 ht
    apply mem_getFullyInitializedHintTypes.2
    constructor
    · obtain ⟨k, hk, rfl⟩ := List.mem_mapIdx.1 ho'
      obtain ⟨hpass, _⟩ := skipped_same _ (rnd k) _ rfl
      exact ⟨_, List.getElem_mem hk, hpass ▸ hout⟩
    · intro o ho hout
      obtain ⟨k, hk⟩ := List.mem_iff_getElem?.1 ho
      have hk' := List.mem_of_getElem? (@skipSubsets_getElem? L _ o k rnd hk)
      obtain ⟨hpass, hstage, _⟩ := skipped_same o (rnd k) _ rfl
      exact hstage ▸ hall _ hk' (hpass ▸ hout)
  intro o' ho' hcan
  obtain ⟨k, hk, rfl⟩ := List.mem_mapIdx.1 ho'
  obtain ⟨hpass, hstage, henabled, hdefunct⟩ := skipped_same _ (rnd k) _ rfl
  apply h _ (List.getElem_mem hk)
  have hcan := PassContext.canInitNow_iff.1 (canInitNow_mono hcan hready)
  rw [hpass, hstage, henabled, hdefunct] at hcan
  exact PassContext.canInitNow_iff.2 hcan

end

section
variable {cfg : Config T} {m m' : TestManager T L}

theorem finishTransform_frame {env : TestEnv T L} (h : m.finishTransform outcome j env = .ok m') :
    m'.phase = m.phase ∧ m'.jobs = m.jobs := by
  unfold TestManager.finishTransform at h
  split at h
  · split at h
    · cases h
    · obtain ⟨c, _, h⟩ := except_bind_ok.1 h
      cases h
      exact ⟨rfl, rfl⟩
  · cases h
    exact ⟨rfl, rfl⟩
  · obtain ⟨m₁, hupdate, h⟩ := except_bind_ok.1 h
    obtain ⟨_, _, _, _, _, _, _, rfl⟩ := TestManager.maybeUpdateSuccessCandidate_ok hupdate
    simp only at h
    split at h
    · cases h
      exact ⟨rfl, rfl⟩
    · cases h
    · obtain ⟨c, _, h⟩ := except_bind_ok.1 h
      cases h
      exact ⟨rfl, rfl⟩

/-- A round of `process_done_futures` makes no jobs. -/
theorem processJob_frame (h : m.processJob cfg sameMtime j = .ok m') :
    m'.phase = m.phase ∧ m'.jobs ⊆ m.jobs := by
  have hpop : ∀ {m₁ m₂ : TestManager T L}, m₁.popRunning j = .ok m₂ →
      m₂.phase = m₁.phase ∧ m₂.jobs = m₁.jobs := by
    intro m₁ m₂ hpop
    rw [TestManager.popRunning_ok hpop]
    exact ⟨rfl, rfl⟩
  have htimedOut : m.handleTimedOutJob j = .ok m' → m'.phase = m.phase ∧ m'.jobs ⊆ m.jobs := by
    intro h
    obtain ⟨m₁, hpopped, h⟩ := except_bind_ok.1 h
    obtain ⟨hphase, hjobs⟩ := hpop hpopped
    have hsub : m₁.jobs.filter (·.order ≠ j.order) ⊆ m.jobs := hjobs ▸ List.filter_subset_self _
    split at h
    · cases h
      exact ⟨hphase, hsub⟩
    · obtain ⟨c, _, h⟩ := except_bind_ok.1 h
      cases h
      exact ⟨hphase, hsub⟩
  rw [TestManager.processJob] at h
  split at h
  · cases h
    exact ⟨rfl, List.Subset.refl _⟩
  · exact htimedOut h
  · split at h
    · exact htimedOut h
    · cases h
  · split at h
    · rw [TestManager.handleFinishedInitJob] at h
      split at h
      · cases h
      · obtain ⟨c, _, h⟩ := except_bind_ok.1 h
        split at h
        · cases h
          exact ⟨rfl, List.filter_subset_self _⟩
        · cases h
    · rename_i env _
      obtain ⟨m₁, hpopped, h⟩ := except_bind_ok.1 h
      obtain ⟨⟨outcome, m₂⟩, hcheck, h⟩ := except_bind_ok.1 h
      obtain ⟨m₃, hfinish, h⟩ := except_bind_ok.1 h
      cases h
      obtain ⟨hphase, hjobs⟩ := hpop hpopped
      obtain ⟨hphase₂, hjobs₂⟩ : m₂.phase = m₁.phase ∧ m₂.jobs = m₁.jobs := by
        cases TestManager.checkPassResult_checked hcheck with
        | _ => exact ⟨rfl, rfl⟩
      obtain ⟨hphase₃, hjobs₃⟩ : m₃.phase = m₂.phase ∧ m₃.jobs = m₂.jobs := finishTransform_frame hfinish
      refine ⟨hphase₃.trans (hphase₂.trans hphase), ?_⟩
      have hall : m₃.jobs = m.jobs := hjobs₃.trans (hjobs₂.trans hjobs)
      exact hall ▸ List.filter_subset_self _

/-- What the end of a job makes of the context of its pass. -/
structure Ends [DecidableEq T] (cfg : Config T) (m : TestManager T L) (e : Event T L) (j : Job T L)
    (c c' : PassContext L) : Prop where
  pass : c'.pass = c.pass
  goesOn : m.goesOn cfg e j c → c'.canTransformNow
  waits : c'.waits → c.waits
  stage : c'.stage = c.stage ∨ j.isTransform = false ∧ j.future = .done

/-- A step that releases the job changes the context of its pass, and no other one. -/
structure Releases [DecidableEq T] (cfg : Config T) (m : TestManager T L) (e : Event T L)
    (j : Job T L) (m' : TestManager T L) : Prop where
  ended : j.future ≠ .pending
  jobs : m'.jobs = m.jobs.filter (·.order ≠ j.order)
  contexts : ∃ f, m'.passContexts = modifyAt j.passId f m.passContexts ∧
    ∀ i c, j.passId = some i → m.passContexts[i]? = some c → Ends cfg m e j c (f c)
  candidate : m'.successCandidate = none → m.successCandidate = none ∧ m.accepts cfg e j = false

section
variable [DecidableEq T] {e : Event T L} {j : Job T L} {c : PassContext L}

theorem done_of_stops (h : m.stops cfg e j) : j.future = .done := by
  unfold TestManager.stops at h
  split at h
  · assumption
  · cases h

theorem done_of_accepts (h : m.accepts cfg e j = true) : j.future = .done := by
  by_contra hne
  exact Bool.false_ne_true ((TestManager.accepts_not_done hne).symm.trans h)

theorem ends_timedOut (hfuture : j.future ≠ .done) :
    Ends cfg m e j c (if j.isTransform then c.dropRunning j.order else c).timedOut := by
  have hgoes : m.goesOn cfg e j c → c.timedOut.canTransformNow := by
    intro h
    unfold TestManager.goesOn at h
    split at h
    · exact absurd ‹_› hfuture
    · exact absurd ‹_› hfuture
    · exact h
  have hwaits : c.timedOut.waits → c.waits := by
    simp only [PassContext.waits, PassContext.timedOut, Bool.not_or, Bool.and_eq_true]
    exact fun h => ⟨⟨h.1.1, h.1.2.1⟩, h.2⟩
  split
  · exact ⟨rfl, hgoes, hwaits, .inl rfl⟩
  · exact ⟨rfl, hgoes, hwaits, .inl rfl⟩

theorem ends_initialized {env : InitEnv T L} (hwork : j.work = .init env)
    (hfuture : j.future = .done) (root : Option DirName) :
    Ends cfg m e j c (c.initialized env.result root) := by
  refine ⟨rfl, fun h => ?_, fun h => ?_, .inr ⟨by rw [Job.isTransform, hwork], hfuture⟩⟩
  · simp only [TestManager.goesOn, hwork, hfuture] at h
    simpa [PassContext.canTransformNow, PassContext.initialized] using h
  · simp [PassContext.waits, PassContext.initialized] at h

theorem ends_stopped {env : TestEnv T L} (hwork : j.work = .transform env)
    (hstops : m.stops cfg e j) (hdefunct : c.defunct → b = true) :
    Ends cfg m e j c { c.dropRunning j.order with state := none, defunct := b } := by
  refine ⟨rfl, fun h => ?_, fun h => ?_, .inl rfl⟩
  · simp [TestManager.goesOn, hwork, done_of_stops hstops, hstops] at h
  · cases hc : c.defunct with
    | true => simp [PassContext.waits, hdefunct hc] at h
    | false =>
      simp only [PassContext.waits, PassContext.dropRunning, hc, Bool.and_eq_true] at h ⊢
      exact ⟨⟨h.1.1, rfl⟩, h.2⟩

/-- A pass whose transform job ends can go on when it could before. -/
theorem ends_transformed {env : TestEnv T L} {c' : PassContext L} (hwork : j.work = .transform env)
    (hpass : c'.pass = c.pass) (hstage : c'.stage = c.stage) (henabled : c'.enabled = c.enabled)
    (hdefunct : c'.defunct = c.defunct) (hstate : c'.state = c.state) : Ends cfg m e j c c' := by
  have hcan : m.goesOn cfg e j c → c.canTransformNow := by
    intro h
    unfold TestManager.goesOn at h
    split at h
    · rename_i hinit _
      cases hwork.symm.trans hinit
    · exact (Bool.and_eq_true _ _ ▸ h).1
    · simp only [PassContext.canTransformNow, PassContext.timedOut, Bool.not_or,
        Bool.and_eq_true] at h ⊢
      exact ⟨⟨⟨h.1.1.1, h.1.1.2.1⟩, h.1.2⟩, h.2⟩
  refine ⟨hpass, fun h => ?_, fun h => ?_, .inl hstage⟩
  · rw [PassContext.canTransformNow, henabled, hdefunct, hstage, hstate]
    exact hcan h
  · rw [PassContext.waits, henabled, hdefunct, hstage] at h
    exact h

theorem Move.releases (hmove : Move cfg m e m') (hp : m.phase = .completing ready (o :: todo))
    (hne : m.jobs ≠ []) (hjobs : m'.jobs = []) :
    ∃ j ∈ m.jobs, j.order = o ∧ Releases cfg m e j m' := by
  have habsurd : ∀ {p}, m.phase = p → p ≠ .completing ready (o :: todo) → False :=
    fun hq hne => hne (hq.symm.trans hp)
  have horder : ∀ {j : Job T L} {ready' todo'},
      m.phase = .completing ready' (j.order :: todo') → j.order = o := by
    intro j ready' todo' hq
    injection hp.symm.trans hq with _ htodo
    injection htodo with h _
    exact h.symm
  cases hmove with
  | timedOut hq hj haccepts hfuture =>
    exact ⟨_, hj, horder hq, hfuture.1, rfl,
      ⟨_, rfl, fun i c _ _ => ends_timedOut hfuture.2⟩, fun h => ⟨h, haccepts⟩⟩
  | initialized hq hj hfuture hwork hi hc =>
    rename_i j env i c _
    refine ⟨j, hj, horder hq, by rw [hfuture]; nofun, rfl,
      ⟨fun c => c.initialized env.result j.temporaryFolder, ?_, ?_⟩, fun h => ⟨h, ?_⟩⟩
    · rw [hi, modifyAt_some hc]
    · exact fun k d _ _ => ends_initialized hwork hfuture _
    · unfold TestManager.accepts
      split
      · rename_i htransform
        cases hwork.symm.trans htransform
      · rfl
  | stopped hq hj hwork hi hc hdefunct haccepts hstops =>
    rename_i j env i c b crashDirs
    refine ⟨j, hj, horder hq, by rw [done_of_stops hstops]; nofun, rfl,
      ⟨fun c => { c.dropRunning j.order with state := none, defunct := b }, ?_, ?_⟩,
      fun h => ⟨h, haccepts⟩⟩
    · rw [hi, modifyAt_some hc]
    · intro k d hk hd
      cases hi.symm.trans hk
      cases hc.symm.trans hd
      exact ends_stopped hwork hstops hdefunct
  | ignored hq hj hwork _ haccepts hfuture =>
    exact ⟨_, hj, horder hq, by rw [hfuture]; nofun, rfl,
      ⟨_, rfl, fun i c _ _ => ends_transformed hwork rfl rfl rfl rfl rfl⟩, fun h => ⟨h, haccepts⟩⟩
  | accepted hq hj hwork _ _ _ _ _ haccepts hsome =>
    exact ⟨_, hj, horder hq, by rw [done_of_accepts haccepts]; nofun, rfl,
      ⟨_, rfl, fun i c _ _ => ends_transformed hwork rfl rfl rfl rfl rfl⟩,
      fun h => absurd h hsome⟩
  | noCandidate hq => exact (habsurd hq nofun).elim
  | call hq => exact (habsurd hq nofun).elim
  | skipEmpty hq => exact (habsurd hq nofun).elim
  | cacheHit hhit => exact (habsurd hhit.phase nofun).elim
  | openTestCase hq => exact (habsurd hq nofun).elim
  | init hq => exact (habsurd hq nofun).elim
  | restart hq => exact (habsurd hq nofun).elim
  | fold hq => exact (habsurd hq nofun).elim
  | transform hq => exact (habsurd hq nofun).elim
  | cancelLost hq => exact (habsurd hq nofun).elim
  | endBatch hq => exact (habsurd hq nofun).elim
  | work => exact absurd (List.map_eq_nil_iff.1 hjobs) hne
  | initRun => exact absurd (List.map_eq_nil_iff.1 hjobs) hne
  | _ => exact absurd hjobs hne

namespace Releases

theorem other (h : Releases cfg m e j m') (hc : m.passContexts[i]? = some c)
    (hne : j.passId ≠ some i) : m'.passContexts[i]? = some c := by
  obtain ⟨f, hf, _⟩ := h.contexts
  rw [hf]
  cases hi : j.passId with
  | none => exact hc
  | some k =>
    rw [hi] at hne
    have hne : k ≠ i := fun h => hne (congrArg some h)
    simp [modifyAt, hne, hc]

theorem own (h : Releases cfg m e j m') (hc : m.passContexts[i]? = some c)
    (hi : j.passId = some i) : ∃ c', m'.passContexts[i]? = some c' ∧ Ends cfg m e j c c' := by
  obtain ⟨f, hf, hends⟩ := h.contexts
  refine ⟨f c, ?_, hends i c hi hc⟩
  simp [hf, hi, modifyAt, hc]

theorem before {i : Nat} {c' : PassContext L} (h : Releases cfg m e j m')
    (hc' : m'.passContexts[i]? = some c') : ∃ c : PassContext L, m.passContexts[i]? = some c ∧
      c'.pass = c.pass ∧ (c'.waits → c.waits) := by
  obtain ⟨f, hf, hends⟩ := h.contexts
  rw [hf] at hc'
  obtain ⟨c, hc, ⟨rfl, _⟩ | ⟨rfl, hi⟩⟩ := modifyAt_getElem? hc'
  · exact ⟨c', hc, rfl, fun h => h⟩
  · obtain ⟨hpass, _, hwaits, _⟩ := hends i c hi hc
    exact ⟨c, hc, hpass, hwaits⟩

theorem initializedWith (h : Releases cfg m e j m')
    (ht : t ∈ getFullyInitializedHintTypes m'.passContexts) : InitializedWith m j t := by
  obtain ⟨⟨o', ho', hout⟩, hall⟩ := mem_getFullyInitializedHintTypes.1 ht
  apply InitializedWith.mk
  · obtain ⟨k, hk⟩ := List.mem_iff_getElem?.1 ho'
    obtain ⟨o, ho, hpass, _⟩ := h.before hk
    exact ⟨o, List.mem_of_getElem? ho, hpass ▸ hout⟩
  · intro k o ho hout
    by_cases hk : j.passId = some k
    · obtain ⟨o', ho', hends⟩ := h.own ho hk
      have hstage := hall o' (List.mem_of_getElem? ho') (hends.pass ▸ hout)
      rcases hends.stage with hsame | ⟨htransform, hfuture⟩
      · exact .inl (hsame ▸ hstage)
      · exact .inr ⟨htransform, hfuture, hk⟩
    · exact .inl (hall o (List.mem_of_getElem? (h.other ho hk)) hout)

/-- The end of the last job leaves a pass that can start by the hint types from the start of the
batch, or none that can be initialized, unless a pass is overlooked. -/
theorem polled (h : Releases cfg m e j m') (hj : j ∈ m.jobs)
    (hp : m.phase = .completing ready (j.order :: todo)) (hnone : NoneOverlooked cfg m e)
    (hjobs : m'.jobs = []) (hcand : m'.successCandidate = none) :
    (∃ c ∈ m'.passContexts, c.canStartJobNow ready) ∨ NoInit m'.passContexts := by
  by_contra hstuck
  obtain ⟨hstart, hinit⟩ := not_or.1 hstuck
  have hstart : ∀ c ∈ m'.passContexts, ¬ c.canInitNow ready ∧ ¬ c.canTransformNow := by
    intro c hc
    have hnot : ¬ c.canStartJobNow ready := fun h => hstart ⟨c, hc, h⟩
    rw [PassContext.canStartJobNow, Bool.or_eq_true] at hnot
    exact not_or.1 hnot
  apply hnone ready j
  refine ⟨⟨todo, hp⟩, hj, ?_, h.ended, h.candidate hcand, ?_, ?_, ?_⟩
  · intro k hk
    rw [h.jobs, List.filter_eq_nil_iff] at hjobs
    simpa using hjobs k hk
  · intro i c hc
    split
    · rename_i hi
      obtain ⟨c', hc', hends⟩ := h.own hc hi
      rw [← Bool.not_eq_true]
      exact fun hgoes => (hstart c' (List.mem_of_getElem? hc')).2 (hends.goesOn hgoes)
    · rename_i hi
      rw [← Bool.not_eq_true]
      exact (hstart c (List.mem_of_getElem? (h.other hc hi))).2
  · intro i c hc hi hwaits
    by_contra hready
    apply (hstart c (List.mem_of_getElem? (h.other hc hi))).1
    rw [canInitNow_waits]
    exact ⟨hwaits, fun t ht => by_contra fun hnot => hready ⟨t, ht, hnot⟩⟩
  · obtain ⟨c', hc', hcan⟩ : ∃ c' ∈ m'.passContexts,
        c'.canInitNow (getFullyInitializedHintTypes m'.passContexts) := by
      by_contra hall
      exact hinit fun c' hc' hcan => hall ⟨c', hc', hcan⟩
    obtain ⟨i, hi⟩ := List.mem_iff_getElem?.1 hc'
    obtain ⟨c, hc, hpass, hwaits⟩ := h.before hi
    obtain ⟨hwaits', hinputs⟩ := canInitNow_waits.1 hcan
    exact ⟨c, List.mem_of_getElem? hc, hwaits hwaits', fun t ht =>
      h.initializedWith (hinputs t (hpass ▸ ht))⟩

end Releases

end
end

namespace LoopInv
section
variable {cfg : Config T} {m m' : TestManager T L}

/-- At most of the places of the main process there is nothing to show. -/
theorem of_phase (hp : m.phase = p) (hpast : p.pastInit = false) (hpolled : p.polled = none)
    (hloop : p.pastLoop = false) : LoopInv m where
  noInit h := by
    rw [hp, hpast] at h
    cases h
  polled ready h := by
    rw [hp, hpolled] at h
    cases h
  exhausted h := by
    rw [hp, hloop] at h
    cases h

theorem endScheduling (h : m.jobs = [] → Exhausted m.passContexts) :
    LoopInv (m.endScheduling ready) := by
  rw [TestManager.endScheduling]
  split
  · rename_i hempty
    exact ⟨fun h => (by cases h), fun _ h => (by cases h), fun _ _ => h (List.isEmpty_iff.1 hempty)⟩
  · rename_i hjobs
    exact ⟨fun h => (by cases h), fun _ _ hempty => absurd (List.isEmpty_iff.2 hempty) hjobs,
      fun h => by cases h⟩

theorem initStep (hp : m.phase = .scheduling ready) (h : m.initStep cfg ch ready = some m') :
    LoopInv m' := by
  rw [TestManager.initStep] at h
  split at h
  · rename_i hfull
    cases h
    apply endScheduling
    intro hempty
    rw [hempty] at hfull
    exact absurd hfull (Nat.not_le_of_lt cfg.parallelTests_pos)
  · split at h
    · rename_i hnone
      cases h
      exact ⟨fun _ => findInit_none hnone, fun _ h => (by cases h), fun h => by cases h⟩
    · split at h
      · cases h
        exact .of_phase hp rfl rfl rfl
      · cases h

theorem restartStep (hinv : NoInit m.passContexts) (h : m.restartStep ch ready = some m') :
    LoopInv m' := by
  rw [TestManager.restartStep] at h
  split at h
  · cases h
    exact ⟨fun _ => hinv, fun _ h => (by cases h), fun h => by cases h⟩
  · split at h
    · split at h
      · cases h
        exact .of_phase rfl rfl rfl rfl
      · rename_i c hc
        split at h
        · simp only at h
          split at h
          · split at h
            · cases h
              exact .of_phase rfl rfl rfl rfl
            · cases h
          · rename_i hcan
            cases h
            exact ⟨fun _ => hinv.pop hc hcan, fun _ h => (by cases h), fun h => by cases h⟩
        · cases h
          exact .of_phase rfl rfl rfl rfl
    · cases h
      exact ⟨fun _ => hinv, fun _ h => (by cases h), fun h => by cases h⟩

theorem foldStep (hinv : NoInit m.passContexts) (h : m.foldStep ch ready = some m') :
    LoopInv m' := by
  rw [TestManager.foldStep] at h
  split at h
  · simp only at h
    split at h
    · split at h
      · cases h
        exact .of_phase rfl rfl rfl rfl
      · cases h
    · cases h
      exact ⟨fun _ => hinv, fun _ h => (by cases h), fun h => by cases h⟩
  · cases h
    exact ⟨fun _ => hinv, fun _ h => (by cases h), fun h => by cases h⟩

theorem orRaise_phase (p : Phase) {r : Except PyErr (TestManager T L)} :
    (m.orRaise (r.map fun m' => { m' with phase := p })).phase = p ∨
      ∃ err, (m.orRaise (r.map fun m' => { m' with phase := p })).phase = .raised err := by
  cases r with
  | error err => exact .inr ⟨err, rfl⟩
  | ok m' => exact .inl rfl

theorem transformStep (hinv : NoInit m.passContexts) (h : m.transformStep ch ready = some m') :
    LoopInv m' := by
  rw [TestManager.transformStep] at h
  simp only at h
  split at h
  · rename_i hnone
    cases h
    exact endScheduling fun _ => ⟨hinv.skipSubsets ch.rnd, pickTransform_none hnone⟩
  · split at h
    · cases h
      exact .of_phase rfl rfl rfl rfl
    · split at h
      · cases h
        rcases orRaise_phase (.scheduling ready) with hp | ⟨err, hp⟩
        · exact .of_phase hp rfl rfl rfl
        · exact .of_phase hp rfl rfl rfl
      · cases h

end

section
variable {cfg : Config T} {m m' : TestManager T L}

theorem loopTest (hinv : LoopInv m) (hp : m.phase = .loop ready) : LoopInv (m.loopTest ready) := by
  rw [TestManager.loopTest]
  split
  · exact .of_phase rfl rfl rfl rfl
  · rename_i hstop
    refine ⟨fun h => (by cases h), fun _ h => (by cases h), fun _ hnone => ?_⟩
    simp only [Bool.not_eq_true', List.isEmpty_eq_false_iff, ne_eq, not_or, not_not,
      List.any_eq_true, not_exists, not_and] at hstop
    obtain ⟨hjobs, hstop⟩ := hstop
    rcases hinv.polled ready (by rw [hp]; rfl) hjobs hnone with ⟨c, hc, hcan⟩ | hinit
    · exact absurd hcan (hstop c hc)
    · refine ⟨hinit, fun c hc hcan => hstop c hc ?_⟩
      rw [PassContext.canStartJobNow, hcan, Bool.or_true]

theorem outerLoop : LoopInv (m.outerLoop cfg ch) := by
  rw [TestManager.outerLoop]
  split
  · rw [TestManager.startBatch]
    split
    · refine ⟨fun h => (by cases h), fun ready h _ _ => ?_, fun h => (by cases h)⟩
      cases h
      by_cases hinit : NoInit (m.passContexts.map (·.atBatchStart))
      · exact .inr hinit
      · apply Or.inl
        simp only [NoInit, not_forall, not_not] at hinit
        obtain ⟨c, hc, hcan⟩ := hinit
        exact ⟨c, hc, by rw [PassContext.canStartJobNow, hcan, Bool.true_or]⟩
    · exact .of_phase rfl rfl rfl rfl
  · exact .of_phase rfl rfl rfl rfl

theorem cancelLost (hinv : LoopInv m) (hp : m.phase = .waiting ready) :
    LoopInv (m.cancelLost ch ready) := by
  refine ⟨fun h => (by cases h), fun ready' h hjobs => ?_, fun h => (by cases h)⟩
  cases h
  exact hinv.polled ready (by rw [hp]; rfl) (List.map_eq_nil_iff.1 hjobs)

theorem checkProgress : LoopInv (m.checkProgress cfg isSuccess) := by
  rw [TestManager.checkProgress]
  split
  · exact .of_phase rfl rfl rfl rfl
  · split
    · exact .of_phase rfl rfl rfl rfl
    · split
      · exact .of_phase rfl rfl rfl rfl
      · exact .of_phase rfl rfl rfl rfl

theorem runPasses (hp : m.phase = .idle) : LoopInv (m.runPasses cfg call) := by
  have hstart : ∀ name, LoopInv (m.startRun cfg call name) := by
    intro name
    rw [TestManager.startRun]
    split
    · exact .of_phase rfl rfl rfl rfl
    · exact .of_phase rfl rfl rfl rfl
  unfold TestManager.runPasses
  split
  · split
    · exact hstart _
    · exact hstart _
    · split
      · exact hstart _
      · exact .of_phase hp rfl rfl rfl
  · exact .of_phase rfl rfl rfl rfl

/-- A worker changes nothing that the loop looks at, apart from its job. -/
theorem work (hinv : LoopInv m) (h : m.work o f = some m') : LoopInv m' := by
  rw [TestManager.work] at h
  split at h
  · cases h
  · split at h
    · obtain ⟨j', _, rfl⟩ := Option.map_eq_some_iff.1 h
      exact ⟨hinv.noInit, fun ready hp hjobs => hinv.polled ready hp (List.map_eq_nil_iff.1 hjobs),
        hinv.exhausted⟩
    · cases h

theorem runInit (hinv : LoopInv m) (h : m.runInit o seed = some m') : LoopInv m' := by
  rw [TestManager.runInit] at h
  split at h
  · cases h
  · split at h
    · cases h
    · obtain ⟨m₁, hm₁, h⟩ := Option.map_eq_some_iff.1 h
      have hinv₁ := hinv.work hm₁
      split at h
      · exact h ▸ hinv₁
      · subst h
        exact ⟨hinv₁.noInit, hinv₁.polled, hinv₁.exhausted⟩

theorem finishTestCase : LoopInv (m.finishTestCase cfg) := by
  rw [TestManager.finishTestCase]
  split
  · exact .of_phase rfl rfl rfl rfl
  · split
    · exact .of_phase rfl rfl rfl rfl
    · exact .of_phase rfl rfl rfl rfl

variable [DecidableEq T]

theorem nextTestCase (hp : m.phase = .testCases) : LoopInv (m.nextTestCase cfg) := by
  rw [TestManager.nextTestCase]
  split
  · exact .of_phase rfl rfl rfl rfl
  · simp only
    split
    · exact .of_phase hp rfl rfl rfl
    · rw [TestManager.openTestCase]
      simp only
      split
      · exact .of_phase hp rfl rfl rfl
      · exact .of_phase rfl rfl rfl rfl

theorem afterBatch : LoopInv m.afterBatch := by
  unfold TestManager.afterBatch
  split
  · exact .of_phase rfl rfl rfl rfl
  · rw [TestManager.processResult]
    simp only
    split
    · exact .of_phase rfl rfl rfl rfl
    · exact .of_phase rfl rfl rfl rfl

theorem completeStep (hinv : LoopInv m) (hp : m.phase = .completing ready todo)
    (hnone : NoneOverlooked cfg m (.main ch : Event T L)) :
    LoopInv (m.completeStep cfg ch ready todo) := by
  have heffect : Effect cfg m (.main ch) (m.completeStep cfg ch ready todo) :=
    TestManager.completeStep_move hp rfl
  cases todo with
  | nil =>
    rw [TestManager.completeStep]
    split
    · rename_i hproceed
      refine ⟨fun h => (by cases h), fun _ h => (by cases h), fun _ hnone => ?_⟩
      have hnone : m.successCandidate = none := hnone
      rw [hnone] at hproceed
      cases hproceed.1
    · refine ⟨fun h => (by cases h), fun ready' h => ?_, fun h => (by cases h)⟩
      cases h
      exact hinv.polled ready (by rw [hp]; rfl)
  | cons order todo =>
    have hkept : ∀ {m' : TestManager T L}, m'.phase = .completing ready todo →
        (m'.jobs = [] → m'.successCandidate = none →
          (∃ c ∈ m'.passContexts, c.canStartJobNow ready) ∨ NoInit m'.passContexts) →
        LoopInv m' := by
      intro m' hp' hpolled
      refine ⟨fun h => ?_, fun ready' h => ?_, fun h => ?_⟩
      · rw [hp'] at h
        cases h
      · rw [hp'] at h
        cases h
        exact hpolled
      · rw [hp'] at h
        cases h
    rw [TestManager.completeStep] at heffect ⊢
    simp only at heffect ⊢
    split
    · exact hkept rfl (hinv.polled ready (by rw [hp]; rfl))
    · rename_i j hfind
      have hj := List.mem_of_find?_eq_some hfind
      rw [hfind] at heffect
      cases hprocess : ({ m with phase := .completing ready todo } : TestManager T L).processJob cfg
          ch.sameMtime j with
      | error err => exact .of_phase rfl rfl rfl rfl
      | ok m' =>
        have hp' : m'.phase = .completing ready todo := (processJob_frame hprocess).1
        simp only [hprocess] at heffect
        apply hkept hp'
        intro hjobs hcand
        rcases heffect with hmove | ⟨err, hraised⟩
        · obtain ⟨k, hk, rfl, hreleases⟩ := hmove.releases hp (List.ne_nil_of_mem hj) hjobs
          exact hreleases.polled hk hp hnone hjobs hcand
        · cases hp'.symm.trans hraised.phase

theorem mainStep (hinv : LoopInv m) (hnone : NoneOverlooked cfg m (.main ch : Event T L))
    (h : m.mainStep cfg ch = some m') : LoopInv m' := by
  rw [TestManager.mainStep] at h
  split at h
  · cases h
  · rename_i hp
    cases h
    exact nextTestCase hp
  · cases h
    exact outerLoop
  · rename_i ready hp
    cases h
    exact hinv.loopTest hp
  · rename_i ready hp
    exact initStep hp h
  · rename_i ready hp
    exact restartStep (hinv.noInit (by rw [hp]; rfl)) h
  · rename_i ready hp
    exact foldStep (hinv.noInit (by rw [hp]; rfl)) h
  · rename_i ready hp
    exact transformStep (hinv.noInit (by rw [hp]; rfl)) h
  · rename_i hp
    cases h
    exact hinv.cancelLost hp
  · rename_i hp
    cases h
    exact hinv.completeStep hp hnone
  · rename_i hp
    cases h
    exact ⟨fun h => (by cases h), fun _ h => (by cases h),
      fun _ hnone => hinv.exhausted (by rw [hp]; rfl) hnone⟩
  · cases h
    exact afterBatch
  · cases h
    exact checkProgress
  · cases h
    exact finishTestCase
  · cases h

theorem step (hinv : LoopInv m) (hnone : NoneOverlooked cfg m e) (h : step cfg m e = some m') :
    LoopInv m' := by
  cases e with
  | runPasses call =>
    rw [Cvise.step] at h
    split at h
    · rename_i hcond
      cases h
      exact runPasses hcond.1
    · cases h
  | main ch => exact hinv.mainStep hnone h
  | copy order t => exact hinv.work h
  | transform order seed => exact hinv.work h
  | test order => exact hinv.work h
  | init order seed => exact hinv.runInit h
  | timeOut order => exact hinv.work h
  | fail order => exact hinv.work h

end
end LoopInv

/-- A batch without a candidate ends when no pass can start, as long as the end of the last job never
overlooks a pass. -/
theorem batch_exhausted [DecidableEq T] (cfg : Config T) (disk : T → TestCase) (t : T)
    (startWithPass : Option Str) (crashDirs : Nat) (m : TestManager T L)
    (hrun : Run (step cfg) (NoneOverlooked cfg) (.start disk t startWithPass crashDirs) m)
    (hp : m.phase = .afterBatch) (hnone : m.successCandidate = none) :
    (∀ c ∈ m.passContexts, ¬ (c.enabled ∧ ¬ c.defunct ∧ c.stage = .beforeInit ∧
      ∀ type ∈ c.pass.inputHintTypes, type ∈ getFullyInitializedHintTypes m.passContexts)) ∧
    ∀ c ∈ m.passContexts, ¬ c.canTransformNow := by
  have hinv : LoopInv m := by
    apply hrun.invariant (P := fun m => LoopInv m)
    · exact .of_phase rfl rfl rfl rfl
    · exact fun u e v hinv hnone hstep => hinv.step hnone hstep
  obtain ⟨hinit, htransform⟩ := hinv.exhausted (by rw [hp]; rfl) hnone
  exact ⟨fun c hc hcan => hinit c hc (PassContext.canInitNow_iff.2 hcan), htransform⟩

/-- A pass for the hint type `@t` that finds none. -/
def noHintsPass : Pass Nat where
  repr := "NoHintsPass".toList
  userVisibleName := "NoHintsPass".toList
  methods := .hint (constantHints [] [[0x40, 0x74]] { hints := [] } nil_not_mem_nil
    fun _ hh => absurd hh List.not_mem_nil)

/-- The pass is initialized, which ends the batch. -/
def noHintsBatch (passes : List (ScheduledPass Nat)) : List (Event Unit Nat) :=
  .runPasses ⟨passes, true, [()]⟩ :: List.replicate 3 (.main {}) ++ .main { dir := 1 } ::
    List.replicate 4 (.main {}) ++ .init 1 (fun _ => 0) :: List.replicate 3 (.main {})

def missedLoop : TestManager Unit Nat :=
  (runFrom (step pairwiseConfig) threeBytes
    (noHintsBatch [⟨noHintsPass, []⟩, ⟨consumerPass, []⟩])).getD threeBytes

theorem missedLoop_run : runFrom (step pairwiseConfig) threeBytes
    (noHintsBatch [⟨noHintsPass, []⟩, ⟨consumerPass, []⟩]) = some missedLoop := rfl

def aloneBatch : List (Event Unit Nat) :=
  noHintsBatch [⟨noHintsPass, []⟩] ++ [.main {}, .main {}]

def afterAlone : TestManager Unit Nat :=
  (runFrom (step pairwiseConfig) threeBytes aloneBatch).getD threeBytes

theorem aloneBatch_run : runFrom (step pairwiseConfig) threeBytes aloneBatch = some afterAlone := rfl

def noneWaits (m : TestManager T L) (_ : Event T L) : Bool :=
  match m.phase with
  | .completing _ _ => m.passContexts.all fun c => !c.waits
  | _ => true

theorem noneOverlooked_of_noneWaits [DecidableEq T] {cfg : Config T} {m : TestManager T L}
    (h : noneWaits m e) : NoneOverlooked cfg m e := by
  intro ready j hover
  obtain ⟨todo, hp⟩ := hover.phase
  obtain ⟨c, hc, hwaits, _⟩ := hover.missed
  rw [noneWaits, hp, List.all_eq_true] at h
  have hnot := h c hc
  rw [hwaits] at hnot
  cases hnot

/-- Alone, the pass without hints ends the batch with nothing left. -/
theorem batch_exhausted_noHints : afterAlone.passContexts.map (·.stage) = [.enumerating] ∧
    (∀ c ∈ afterAlone.passContexts, ¬ (c.enabled ∧ ¬ c.defunct ∧ c.stage = .beforeInit ∧
      ∀ type ∈ c.pass.inputHintTypes,
        type ∈ getFullyInitializedHintTypes afterAlone.passContexts)) ∧
    ∀ c ∈ afterAlone.passContexts, ¬ c.canTransformNow := by
  have hrun : Run (step pairwiseConfig) (NoneOverlooked pairwiseConfig) threeBytes afterAlone :=
    (run_of_along (c := noneWaits) aloneBatch_run (by decide)).mono
      fun m e => noneOverlooked_of_noneWaits
  exact ⟨rfl, batch_exhausted pairwiseConfig (fun _ => .file [1, 2, 3]) () none 0 afterAlone hrun rfl
    rfl⟩

/-- The pass that takes the hint type `@t` is left, although all passes with such hints have been
initialized. -/
theorem consumer_missed : ∃ m : TestManager Unit Nat, Reach (step pairwiseConfig) threeBytes m ∧
    m.phase = .afterBatch ∧ m.successCandidate = none ∧ ∃ c ∈ m.passContexts,
      c.enabled ∧ ¬ c.defunct ∧ c.stage = .beforeInit ∧
        ∀ type ∈ c.pass.inputHintTypes, type ∈ getFullyInitializedHintTypes m.passContexts := by
  have hend : runFrom (step pairwiseConfig) missedLoop [.main {}, .main {}] =
      some ({ missedLoop with phase := .batchEnd } : TestManager Unit Nat).endBatch := rfl
  refine ⟨_, (runFrom_reach missedLoop_run).trans (runFrom_reach hend), rfl, rfl, ?_⟩
  refine ⟨{ PassContext.create consumerPass with enabled := true }, ?_, by decide⟩
  exact List.mem_of_getElem? (i := 1) rfl

end Cvise
