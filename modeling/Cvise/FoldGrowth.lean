import Cvise.FoldHistory
import Cvise.HintFreshness
import Mathlib.Data.List.Perm.Subperm

namespace Cvise
set_option autoImplicit true

variable {T L : Type}

namespace FoldingManager
variable {fm : FoldingManager} {best : Option (PassState L)}

theorem mem_sample {xs : List HintState} (h : s ∈ sample picked xs k) : s ∈ xs := by
  rw [sample] at h
  split at h
  · rename_i hsample
    exact hsample.2.1 h
  · exact List.mem_of_mem_take h

theorem not_mem_bannedStates (h : s ∈ forcelist) : s ∉ fm.bannedStates forcelist bans := by
  intro hbanned
  obtain ⟨e, _, hs⟩ := List.mem_flatMap.1 hbanned
  exact of_decide_eq_true (List.mem_filter.1 (mem_sample hs)).2 h

theorem maybePrepareFoldingJob_improves
    (h : fm.maybePrepareFoldingJob jobOrder best choice = (some subStates, fm'))
    (hbest : ∀ s ∈ forcelistStates best, s ∈ fm.foldingCandidates) :
    (∀ s ∈ forcelistStates best, s ∈ subStates) ∧
      ∃ s ∈ subStates, s ∉ forcelistStates best := by
  rcases fm.maybePrepareFoldingJob_eq jobOrder best choice with
    ⟨_, heq⟩ | ⟨⟨_, _, hlarger⟩, state, hstate, heq⟩
  · cases heq.symm.trans h
  · rw [heq] at h
    split at h
    · cases h
    · cases h
      simp only [← hstate, mem_arrange]
      apply And.intro
      · intro s hs
        have hfree : s ∉ fm.bannedStates _ choice.bans := not_mem_bannedStates hs
        exact List.mem_filter.2 ⟨List.mem_dedup.2 (hbest s hs), decide_eq_true hfree⟩
      · by_contra hnone
        have hsub : fm.toFold best choice ⊆ forcelistStates best := by
          intro s hs
          by_contra hmore
          exact hnone ⟨s, hs, hmore⟩
        have hnodup : (fm.toFold best choice).Nodup := (List.nodup_dedup _).filter _
        exact absurd (List.subperm_of_subset hnodup hsub).length_le (Nat.not_le_of_lt hlarger)

end FoldingManager

def Job.state (j : Job T L) : Option (PassState L) :=
  match j.work with
  | .init _ => none
  | .transform env => env.state

/-- The exit code of a transform job's test, once it has run. -/
def Job.exitcode (j : Job T L) : Option Int :=
  match j.work with
  | .init _ => none
  | .transform env => env.exitcode

/-- The test succeeds on the test cases in the folder of a transform job. -/
def Job.passes (cfg : Config T) (j : Job T L) : Bool :=
  match j.work with
  | .init _ => false
  | .transform env => (cfg.test env.folder).1 = 0

/-- The jobs that pass the interestingness test in a step. -/
def passing (cfg : Config T) (m m' : TestManager T L) : List (Job T L) :=
  m.jobs.filter fun j => j.exitcode = none ∧ j.passes cfg ∧
    m'.jobs.any fun j' => j'.order = j.order ∧ j'.exitcode = some 0

/-- The jobs that have passed the interestingness test in the batch in which the events end, each as
it was before its test. A batch starts in the phase `outer`. -/
def passedInBatch [DecidableEq T] (cfg : Config T) :
    List (Job T L) → TestManager T L → List (Event T L) → List (Job T L)
  | passed, _, [] => passed
  | passed, m, e :: es =>
    match step cfg m e with
    | none => passed
    | some m' => passedInBatch cfg (if m.phase = .outer then [] else passed ++ passing cfg m m') m' es

/-- The state is that of a job of a pass. -/
def HasPassed (passed : List (Job T L)) (s : HintState) : Prop :=
  ∃ k ∈ passed, k.pass ≠ none ∧ k.state = some (.hint s)

/-- What the environment of a transform job has to do with folding. -/
structure EnvFolds (passed : List (Job T L)) (candidates : List HintState) (env : TestEnv T L) :
    Prop where
  foldIn : env.pass = none → ∀ subStates, env.state = some (.foldIn subStates) →
    subStates ⊆ candidates
  noHint : env.pass = none → ∀ s, env.state ≠ some (.hint s)
  forced : env.result = some .ok → ∀ s ∈ FoldingManager.forcelistStates env.state,
    env.state = some (.hint s) ∨ s ∈ candidates
  exited : env.exitcode ≠ none → env.result = some .ok
  tested : env.exitcode = some 0 → ∀ s, env.state = some (.hint s) → HasPassed passed s

/-- What folding relies on in a batch: candidates have passed the test, and the best discovery so far
consists of candidates. -/
structure FoldInv (passed : List (Job T L)) (m : TestManager T L) : Prop where
  candidates : ∀ s ∈ m.foldingManager.foldingCandidates, HasPassed passed s
  jobs : ∀ j ∈ m.jobs, ∀ env, j.work = .transform env → env.pass = j.pass ∧
    EnvFolds passed m.foldingManager.foldingCandidates env
  best : ∀ cand, m.successCandidate = some cand →
    ∀ s ∈ FoldingManager.forcelistStates cand.passState, s ∈ m.foldingManager.foldingCandidates

namespace EnvFolds
variable {passed passed' : List (Job T L)} {candidates candidates' : List HintState}
  {env env' : TestEnv T L}

theorem mono (h : EnvFolds passed candidates env) (hpassed : passed ⊆ passed')
    (hcandidates : candidates ⊆ candidates') : EnvFolds passed' candidates' env where
  foldIn hpass subStates hstate := List.Subset.trans (h.foldIn hpass subStates hstate) hcandidates
  noHint := h.noHint
  forced hok s hs := (h.forced hok s hs).imp_right fun hmem => hcandidates hmem
  exited := h.exited
  tested hexit s hstate := by
    obtain ⟨k, hk, hpass⟩ := h.tested hexit s hstate
    exact ⟨k, hpassed hk, hpass⟩

theorem new {s : PassState L} {p : Pass L} {t : T} {copy : Bool} : EnvFolds passed candidates
    { state := some s, testCase := t, shouldCopyCurrentTestCase := copy, pass := some p } :=
  ⟨nofun, nofun, nofun, fun hne => absurd rfl hne, nofun⟩

theorem fold {t : T} (hsub : subStates ⊆ candidates) : EnvFolds passed candidates
    ({ state := some (.foldIn subStates), testCase := t, shouldCopyCurrentTestCase := false,
       pass := none } : TestEnv T L) where
  foldIn _ _ hstate := by
    cases hstate
    exact hsub
  noHint _ _ hstate := by cases hstate
  forced hok := by cases hok
  exited hne := absurd rfl hne
  tested hexit := by cases hexit

theorem foldTransform_state {r : HintReader} {x : Transformed L}
    (h : foldTransform r original subStates = .ok x) :
    x.state = none ∨ ∃ f, x.state = some (.foldOut f) ∧ f.subStates = subStates := by
  obtain ⟨applied, _, h⟩ := except_bind_ok.1 h
  cases applied with
  | none =>
    cases h
    exact .inl rfl
  | some result =>
    cases h
    exact .inr ⟨_, rfl, rfl⟩

theorem Pass.transform_state {p : Pass L} {x : Transformed L}
    (h : p.transform r seed original copied state = .ok x)
    (hs : s ∈ FoldingManager.forcelistStates x.state) : x.state = some (.hint s) := by
  unfold Pass.transform at h
  split at h
  · split at h
    · cases h
      cases hs
    · obtain ⟨applied, _, h⟩ := except_bind_ok.1 h
      cases applied with
      | none =>
        cases h
        cases hs
      | some result =>
        cases h
        cases List.mem_singleton.1 hs
        rfl
  · split at h
    · obtain ⟨⟨result, state', data'⟩, _, h⟩ := except_bind_ok.1 h
      cases h
      cases state' with
      | none => cases hs
      | some s' => cases hs
    · cases h
  · cases h

theorem exitcode_none (h : EnvFolds passed candidates env) (hresult : env.result = none) :
    env.exitcode = none := by
  by_contra hne
  rw [h.exited hne] at hresult
  cases hresult

theorem transformed {r : HintReader} (h : EnvFolds passed candidates env)
    (hresult : env.result = none) (hx : env.callTransform r seed original = .ok x)
    (henv' : env'.pass = env.pass ∧ env'.state = x.state ∧ env'.exitcode = env.exitcode) :
    EnvFolds passed candidates env' := by
  obtain ⟨hpass', hstate', hexit'⟩ := henv'
  have hexit : env'.exitcode = none := hexit'.trans (h.exitcode_none hresult)
  rw [TestEnv.callTransform] at hx
  cases hpass : env.pass with
  | some p =>
    rw [hpass] at hx
    rw [hpass] at hpass'
    apply EnvFolds.mk
    · intro hnone
      cases hpass'.symm.trans hnone
    · intro hnone
      cases hpass'.symm.trans hnone
    · intro _ s hs
      rw [hstate'] at hs
      exact .inl (hstate' ▸ Pass.transform_state hx hs)
    · exact fun hne => absurd hexit hne
    · intro hzero
      cases hexit.symm.trans hzero
  | none =>
    rw [hpass] at hx
    simp only at hx
    split at hx
    · rename_i subStates hsub
      have hstates := foldTransform_state hx
      rw [← hstate'] at hstates
      apply EnvFolds.mk
      · intro _ subStates' hfold
        rcases hstates with hnone | ⟨f, hf, _⟩
        · cases hnone.symm.trans hfold
        · cases hf.symm.trans hfold
      · intro _ s hhint
        rcases hstates with hnone | ⟨f, hf, _⟩
        · cases hnone.symm.trans hhint
        · cases hf.symm.trans hhint
      · intro _ s hs
        rcases hstates with hnone | ⟨f, hf, hfsub⟩
        · rw [hnone] at hs
          cases hs
        · rw [hf] at hs
          have hmem := List.mem_dedup.1 hs
          exact .inr (h.foldIn hpass subStates hsub (hfsub ▸ hmem))
      · exact fun hne => absurd hexit hne
      · intro hzero
        cases hexit.symm.trans hzero
    · cases hx

theorem runTransform [DecidableEq T] {r : HintReader} (h : EnvFolds passed candidates env)
    (hresult : env.result = none)
    (hrun : env.runTransform r seed original = (env', goesOn)) :
    env'.pass = env.pass ∧ EnvFolds passed candidates env' := by
  rcases TestEnv.runTransform_cases hrun with ⟨x, hx, rfl, _⟩ | ⟨_, rfl | rfl⟩
  · exact ⟨rfl, h.transformed hresult hx ⟨rfl, rfl, rfl⟩⟩
  · have hexit := h.exitcode_none hresult
    exact ⟨rfl, h.foldIn, h.noHint, nofun, fun hne => absurd hexit hne, h.tested⟩
  · exact ⟨rfl, h⟩

theorem runTest [DecidableEq T] {test : Folder T → Int × Folder T}
    (h : EnvFolds passed candidates env) (hresult : env.result = some .ok)
    (hzero : (test env.folder).1 = 0 → ∀ s, env.state = some (.hint s) → HasPassed passed s)
    (original : TestCase) : (env.runTest test original).pass = env.pass ∧
      EnvFolds passed candidates (env.runTest test original) := by
  obtain ⟨folder, originalSize, newSize, heq⟩ := env.runTest_eq test original
  rw [heq]
  refine ⟨rfl, h.foldIn, h.noHint, h.forced, fun _ => hresult, fun hexit => ?_⟩
  exact hzero (Option.some.inj hexit)

end EnvFolds

section
variable [DecidableEq T] {cfg : Config T} {m m' : TestManager T L} {e : Event T L}
  {passed : List (Job T L)}

theorem Move.candidates_subset (hmove : Move cfg m e m') (hk : m.phase.kind = .batch) :
    m.foldingManager.foldingCandidates ⊆ m'.foldingManager.foldingCandidates := by
  intro s hs
  cases hmove with
  | startBatch hp =>
    rw [hp] at hk
    cases hk
  | noFold _ hfm =>
    simp only [hfm]
    exact hs
  | fold _ _ hprepare =>
    have hfm := congrArg Prod.snd hprepare
    simp only at hfm ⊢
    rw [← hfm, FoldingManager.maybePrepareFoldingJob_candidates]
    exact hs
  | ignored _ _ _ hfm =>
    simp only [hfm]
    exact hs
  | accepted =>
    simp only
    split
    · exact FoldingManager.onTransformJobSuccess_candidates.2 (.inl hs)
    · exact hs
  | _ => exact hs

theorem Move.bestCandidate (hmove : Move cfg m e m') (hinterleaving : m.interleaving)
    (hcand : m'.successCandidate = some cand) : m.successCandidate = some cand ∨
      ∃ j env, j ∈ m.jobs ∧ j.work = .transform env ∧ env.success ∧ cand.passState = env.state ∧
        ∀ s, env.state = some (.hint s) → s ∈ m'.foldingManager.foldingCandidates := by
  cases hmove with
  | accepted _ hj hwork hsuccess _ _ _ hnew =>
    rcases hnew with hnew | hnew
    · cases hnew.symm.trans hcand
      refine .inr ⟨_, _, hj, hwork, hsuccess, rfl, fun s hs => ?_⟩
      simp only [if_pos hinterleaving]
      exact FoldingManager.onTransformJobSuccess_candidates.2 (.inr hs)
    · exact .inl (hnew ▸ hcand)
  | close => cases hcand
  | commit => cases hcand
  | _ => exact .inl hcand

theorem Move.newFold (hmove : Move cfg m e m') (hj : j ∈ m'.jobs)
    (hnew : j.order ∉ m.jobs.map (·.order)) (hpass : j.pass = none) :
    m.phase.kind = .batch ∧ m.interleaving ∧ ∃ jobOrder choice fm subStates,
      m.foldingManager.maybePrepareFoldingJob jobOrder
        (m.successCandidate.bind (·.passState)) choice = (some subStates, fm) ∧
      j.state = some (.foldIn subStates) := by
  have hold : ∀ k ∈ m.jobs, k.order ≠ j.order := fun k hk heq =>
    hnew (List.mem_map.2 ⟨k, hk, heq⟩)
  have hkept : j ∉ m.jobs := fun hmem => hold j hmem rfl
  have happend : ∀ {k : Job T L}, j ∈ m.jobs ++ [k] → k.pass ≠ none → False := by
    intro k hmem hk
    rcases List.mem_append.1 hmem with hmem | hmem
    · exact hkept hmem
    · cases List.mem_singleton.1 hmem
      exact hk hpass
  have hput : ∀ {k k' : Job T L}, k ∈ m.jobs → k'.order = k.order →
      j ∉ m.jobs.map fun l => if l.order = k.order then k' else l := by
    intro k k' hk horder hmem
    obtain ⟨l, hl, heq⟩ := List.mem_map.1 hmem
    split at heq
    · exact hold k hk (horder.symm.trans (congrArg Job.order heq))
    · exact hold l hl (congrArg Job.order heq)
  cases hmove with
  | fold hp hinterleaving hprepare =>
    rcases List.mem_append.1 hj with hj | hj
    · exact absurd hj hkept
    · cases List.mem_singleton.1 hj
      exact ⟨by rw [hp]; rfl, hinterleaving, _, _, _, _, hprepare, rfl⟩
  | init => exact (happend hj nofun).elim
  | restart => exact (happend hj nofun).elim
  | transform => exact (happend hj nofun).elim
  | cacheHit => cases hj
  | openTestCase => cases hj
  | endBatch => cases hj
  | timedOut => exact absurd (List.mem_filter.1 hj).1 hkept
  | initialized => exact absurd (List.mem_filter.1 hj).1 hkept
  | stopped => exact absurd (List.mem_filter.1 hj).1 hkept
  | ignored => exact absurd (List.mem_filter.1 hj).1 hkept
  | accepted => exact absurd (List.mem_filter.1 hj).1 hkept
  | cancelLost =>
    obtain ⟨k, hk, heq⟩ := List.mem_map.1 hj
    have horder : k.order = j.order := by
      rw [← heq]
      split
      · rfl
      · rfl
    exact absurd horder (hold k hk)
  | work hk _ hstep => exact absurd hj (hput hk hstep.frame.1)
  | initRun hk => exact absurd hj (hput hk rfl)
  | _ => exact absurd hj hkept

namespace FoldInv

theorem jobStep (h : FoldInv passed m) (hj : j ∈ m.jobs) (hj' : j' ∈ m'.jobs)
    (hstep : JobStep cfg m e j j') (henv' : j'.work = .transform env') : env'.pass = j'.pass ∧
      EnvFolds (passed ++ passing cfg m m') m.foldingManager.foldingCandidates env' := by
  have hmono : passed ⊆ passed ++ passing cfg m m' := List.subset_append_left _ _
  have hsame : ∀ env, j.work = .transform env → env.pass = j.pass ∧
      EnvFolds (passed ++ passing cfg m m') m.foldingManager.foldingCandidates env := by
    intro env hwork
    obtain ⟨hpass, hfolds⟩ := h.jobs j hj env hwork
    exact ⟨hpass, hfolds.mono hmono (List.Subset.refl _)⟩
  cases hstep with
  | copy hwork =>
    cases henv'
    obtain ⟨hpass, hfolds⟩ := hsame _ hwork
    exact ⟨hpass, hfolds.foldIn, hfolds.noHint, hfolds.forced, hfolds.exited, hfolds.tested⟩
  | transform hwork hresult _ hrun =>
    cases henv'
    obtain ⟨hpass, hfolds⟩ := hsame _ hwork
    obtain ⟨hpass', hfolds'⟩ := hfolds.runTransform hresult hrun
    exact ⟨hpass'.trans hpass, hfolds'⟩
  | test hwork hresult hexit =>
    rename_i env
    cases henv'
    obtain ⟨hpass, hfolds⟩ := hsame _ hwork
    have hzero : (cfg.test env.folder).1 = 0 → ∀ s, env.state = some (.hint s) →
        HasPassed (passed ++ passing cfg m m') s := by
      intro hzero s hstate
      refine ⟨j, List.mem_append_right _ (List.mem_filter.2 ⟨hj, ?_⟩), ?_, ?_⟩
      · obtain ⟨folder, originalSize, newSize, heq⟩ := env.runTest_eq cfg.test (m.disk env.testCase)
        have hafter : (env.runTest cfg.test (m.disk env.testCase)).exitcode = some 0 := by
          rw [heq, hzero]
        simp only [Job.exitcode, Job.passes, hwork, hexit, hzero, decide_true, true_and,
          decide_eq_true_eq, List.any_eq_true]
        exact ⟨_, hj', by simp [hafter]⟩
      · intro hnone
        exact hfolds.noHint (hpass.trans hnone) s hstate
      · rw [Job.state, hwork]
        exact hstate
    obtain ⟨hpass', hfolds'⟩ := hfolds.runTest hresult hzero (m.disk env.testCase)
    exact ⟨hpass'.trans hpass, hfolds'⟩
  | ended _ => exact hsame _ henv'

theorem move (h : FoldInv passed m) (hk : m.phase.kind = .batch) (hinterleaving : m.interleaving)
    (hmove : Move cfg m e m') : FoldInv (passed ++ passing cfg m m') m' := by
  have hpassed : passed ⊆ passed ++ passing cfg m m' := List.subset_append_left _ _
  have hcandidates := hmove.candidates_subset hk
  apply FoldInv.mk
  · intro s hs
    rcases hmove.foldingCandidates hk hs with hold | ⟨j, env, hj, hwork, hsuccess, hstate⟩
    · obtain ⟨k, hk, hpass⟩ := h.candidates s hold
      exact ⟨k, hpassed hk, hpass⟩
    · rw [TestEnv.success, decide_eq_true_eq] at hsuccess
      obtain ⟨k, hk, hpass⟩ := (h.jobs j hj env hwork).2.tested hsuccess.2 s hstate
      exact ⟨k, hpassed hk, hpass⟩
  · intro j' hj' env' henv'
    cases hmove.mem_jobs hj' with
    | kept hj =>
      obtain ⟨hpass, hfolds⟩ := h.jobs j' hj env' henv'
      exact ⟨hpass, hfolds.mono hpassed hcandidates⟩
    | step hj _ hstep =>
      obtain ⟨hpass, hfolds⟩ := h.jobStep hj hj' hstep henv'
      exact ⟨hpass, hfolds.mono (List.Subset.refl _) hcandidates⟩
    | initRun _ _ _ _ heq =>
      rw [heq] at henv'
      cases henv'
    | scheduled hnew =>
      cases hnew with
      | init => cases henv'
      | transform =>
        cases henv'
        exact ⟨rfl, .new⟩
      | fold _ hsub =>
        cases henv'
        exact ⟨rfl, .fold fun s hs => hcandidates (hsub s hs)⟩
  · intro cand hcand s hs
    rcases hmove.bestCandidate hinterleaving hcand with hold | ⟨j, env, hj, hwork, hsuccess, hstate, hnew⟩
    · exact hcandidates (h.best cand hold s hs)
    · rw [TestEnv.success, decide_eq_true_eq] at hsuccess
      rcases (h.jobs j hj env hwork).2.forced hsuccess.1 s (hstate ▸ hs) with hhint | hmem
      · exact hnew s hhint
      · exact hcandidates hmem

theorem start (hphase : PhaseInv cfg m) (hmove : Move cfg m e m') (hp : m.phase = .outer)
    (hjobs : m'.jobs = m.jobs) (hcandidates : m'.foldingManager.foldingCandidates = []) :
    FoldInv (T := T) (L := L) [] m' := by
  have hnone : m.jobs = [] := hphase.jobs (by rw [hp]; nofun)
  have hcand : m'.successCandidate = none := by
    rcases hmove.successCandidate with heq | heq | ⟨j, _, _, hj, _⟩
    · exact heq.trans (hphase.candidate (by rw [hp]; nofun) (by rw [hp]; nofun))
    · exact heq
    · rw [hnone] at hj
      cases hj
  apply FoldInv.mk
  · rw [hcandidates]
    exact fun s hs => absurd hs List.not_mem_nil
  · rw [hjobs, hnone]
    exact fun j hj => absurd hj List.not_mem_nil
  · rw [hcand]
    nofun

/-- What folding relies on holds after any events, in batches with interleaving. -/
theorem of_runFrom (h : runFrom (step cfg) m es = some m') (halive : m'.Alive)
    (hphase : PhaseInv cfg m)
    (hinv : m.phase.kind = .batch → m.interleaving → FoldInv passed m) :
    m'.phase.kind = .batch → m'.interleaving → FoldInv (passedInBatch cfg passed m es) m' := by
  induction es generalizing m passed with
  | nil =>
    cases h
    exact hinv
  | cons e es ih =>
    obtain ⟨u, hu, hrun⟩ := Option.bind_eq_some_iff.1 h
    have hmove : Move cfg m e u := step_move hu (alive_of_run (runFrom_reach hrun) halive)
    rw [passedInBatch, hu]
    apply ih hrun (hphase.move hmove)
    intro hk' hinterleaving
    rcases hmove.enters_batch hk' with hk | ⟨hp, hjobs, _, hcandidates⟩
    · have hne : m.phase ≠ .outer := by
        intro hp
        rw [hp] at hk
        cases hk
      rw [(hmove.in_batch hk').2] at hinterleaving
      rw [if_neg hne]
      exact (hinv hk hinterleaving).move hk hinterleaving hmove
    · rw [if_pos hp]
      exact start hphase hmove hp hjobs (hcandidates hinterleaving)

end FoldInv

/-- Each fold that is scheduled consists of states of passes that have passed the interestingness test
in this batch. If the best candidate so far is a hint state or a fold, then the new fold has all of its
states, and one more. -/
theorem folds_improve (disk : T → TestCase) (t : T) (startWithPass : Option Str) (crashDirs : Nat) :
    ∀ es (m : TestManager T L), runFrom (step cfg) (.start disk t startWithPass crashDirs) es = some m →
      ∀ e m', step cfg m e = some m' → m'.Alive →
        ∀ j ∈ m'.jobs, j.order ∉ m.jobs.map (·.order) → j.pass = none →
          ∃ subStates, j.state = some (.foldIn subStates) ∧
            (∀ s ∈ subStates, ∃ k ∈ passedInBatch cfg [] (.start disk t startWithPass crashDirs) es,
              k.pass ≠ none ∧ k.state = some (.hint s)) ∧
            ∀ cand, m.successCandidate = some cand →
              (∀ b, cand.passState = some (.hint b) → b ∈ subStates ∧ ∃ s ∈ subStates, s ≠ b) ∧
              ∀ f, cand.passState = some (.foldOut f) →
                f.subStates ⊆ subStates ∧ ∃ s ∈ subStates, s ∉ f.subStates := by
  intro es m hrun e m' hstep halive j hj hnew hpass
  have halive₀ := step_alive hstep halive
  obtain ⟨hk, hinterleaving, jobOrder, choice, fm, subStates, hprepare, hstate⟩ :=
    (step_move hstep halive).newFold hj hnew hpass
  have hinv : FoldInv (passedInBatch cfg [] _ es) m :=
    FoldInv.of_runFrom hrun halive₀ .start nofun hk hinterleaving
  refine ⟨subStates, hstate, fun s hs => ?_, fun cand hcand => ?_⟩
  · exact hinv.candidates s (FoldingManager.maybePrepareFoldingJob_subset
      (congrArg Prod.fst hprepare) s hs)
  · rw [hcand, Option.bind_some] at hprepare
    obtain ⟨hall, s, hs, hmore⟩ :=
      FoldingManager.maybePrepareFoldingJob_improves hprepare (hinv.best cand hcand)
    apply And.intro
    · intro b hb
      rw [hb] at hall hmore
      exact ⟨hall b (List.mem_singleton.2 rfl), s, hs, fun heq => hmore (List.mem_singleton.2 heq)⟩
    · intro f hf
      rw [hf] at hall hmore
      exact ⟨fun b hb => hall b (List.mem_dedup.2 hb), s, hs,
        fun hmem => hmore (List.mem_dedup.2 hmem)⟩

end

/-- Two hints that each delete a byte. -/
def twoBytesBundle : HintBundle where
  hints := [{ patches := [{ left := some 0, right := some 1 }] },
    { patches := [{ left := some 1, right := some 2 }] }]

theorem twoBytesBundle_typed : twoBytesBundle.TypesIn [] := by
  intro h hh type htype
  rcases List.mem_cons.1 hh with rfl | hh
  · cases htype
    exact .inl rfl
  · cases List.mem_singleton.1 hh
    cases htype
    exact .inl rfl

def twoBytesPass : Pass Nat where
  repr := "TwoBytesPass".toList
  userVisibleName := "TwoBytesPass".toList
  methods := .hint (constantHints [] [] twoBytesBundle nil_not_mem_nil twoBytesBundle_typed)

/-- An attempt with both hints and one with the first alone succeed; a fold is next. -/
def untilFold : List (Event Unit Nat) :=
  .runPasses ⟨[⟨twoBytesPass, []⟩], true, [()]⟩ :: List.replicate 3 (.main {}) ++
    .main { dir := 1 } :: List.replicate 4 (.main {}) ++ .init 1 (fun _ => 0) ::
    List.replicate 7 (.main {}) ++ .main { dir := 2 } :: List.replicate 3 (.main {}) ++
    [.main { dir := 3 }, .main {}, .transform 2 fun _ => 0, .test 2, .transform 3 fun _ => 0,
      .test 3] ++ List.replicate 7 (.main {})

def beforeFold : TestManager Unit Nat :=
  (runFrom (step pairwiseConfig) threeBytes untilFold).getD threeBytes

theorem untilFold_run : runFrom (step pairwiseConfig) threeBytes untilFold = some beforeFold := rfl

def foldScheduled : TestManager Unit Nat :=
  (step pairwiseConfig beforeFold (.main { dir := 4 })).getD beforeFold

theorem fold_step : step pairwiseConfig beforeFold (.main { dir := 4 }) = some foldScheduled := rfl

/-- The best candidate is the state with both hints, and the fold has it and the other one. -/
theorem folds_improve_twoBytes : ∃ b, beforeFold.successCandidate.bind (·.passState) =
      some (.hint b) ∧ b.realChunk = 2 ∧
    ∃ j ∈ foldScheduled.jobs, ∃ subStates, j.state = some (.foldIn subStates) ∧
      b ∈ subStates ∧ ∃ s ∈ subStates, s ≠ b := by
  obtain ⟨b, hb, hchunk⟩ : ∃ b, beforeFold.successCandidate.bind (·.passState) =
      some (.hint b) ∧ b.realChunk = 2 := ⟨_, rfl, rfl⟩
  obtain ⟨cand, hcand, hstate⟩ := Option.bind_eq_some_iff.1 hb
  obtain ⟨j, hj, hkey⟩ := List.mem_map.1 (show (4, true) ∈
    foldScheduled.jobs.map (fun j => (j.order, j.pass.isNone)) by decide)
  obtain ⟨horder, hpass⟩ := Prod.mk.inj hkey
  have hnew : j.order ∉ beforeFold.jobs.map (·.order) := by
    rw [horder]
    decide
  obtain ⟨subStates, hfold, _, himproves⟩ := folds_improve (fun _ => .file [1, 2, 3]) () none 0
    untilFold beforeFold untilFold_run (.main { dir := 4 }) foldScheduled fold_step (by decide)
    j hj hnew (Option.isNone_iff_eq_none.1 hpass)
  exact ⟨b, hb, hchunk, j, hj, subStates, hfold, (himproves cand hcand).1 b hstate⟩

end Cvise
