import Cvise.Moves

namespace Cvise
set_option autoImplicit true

variable {T L : Type}

namespace TestManager
section
variable {m m' : TestManager T L}

theorem endScheduling_kind (ready : List Bytes) (m : TestManager T L) :
    (m.endScheduling ready).phase.kind = .batch := by
  rw [endScheduling]
  split
  · rfl
  · rfl

theorem context_ok {m : TestManager T L} : m.context i = .ok c ↔ m.passContexts[i]? = some c := by
  rw [context]
  split
  · rename_i d hd
    rw [hd, Except.ok.injEq, Option.some.injEq]
  · rename_i hd
    rw [hd]
    exact ⟨nofun, nofun⟩

theorem popRunning_ok (h : m.popRunning j = .ok m') : m' = { m with
    passContexts := modifyAt j.passId
      (fun c => if j.isTransform then c.dropRunning j.order else c) m.passContexts } := by
  rw [popRunning] at h
  split at h
  · rename_i hi
    cases h
    rw [hi, modifyAt]
  · rename_i i hi
    split at h
    · rename_i hj
      obtain ⟨c, hc, h⟩ := except_bind_ok.1 h
      obtain ⟨c', hc', h⟩ := except_bind_ok.1 h
      rw [PassContext.popRunning] at hc'
      split at hc'
      · cases h
        cases hc'
        rw [setContext, hi, modifyAt_some (context_ok.1 hc), if_pos hj]
        rfl
      · cases hc'
    · rename_i hj
      cases h
      simp only [hj, Bool.false_eq_true, if_false]
      rw [modifyAt_id]

theorem deleteDirs_nil (m : TestManager T L) : m.deleteDirs [] = m := by
  simp only [deleteDirs, List.not_mem_nil, if_false]

theorem releaseJob_none {m : TestManager T L} {j : Job T L} (h : j.temporaryFolder = none) :
    m.releaseJob j = { m with jobs := m.jobs.filter (·.order ≠ j.order) } := by
  rw [releaseJob, h, Option.toList_none, deleteDirs_nil]

theorem reportPassBug_ok {env : TestEnv T L} (h : m.reportPassBug cfg env = .ok (made, m')) :
    ∃ n, m' = { m with crashDirs := n } := by
  rw [reportPassBug] at h
  split at h
  · cases h
    exact ⟨_, rfl⟩
  · split at h
    · split at h
      · cases h
      · cases h
        exact ⟨_, rfl⟩
    · cases h

/-- What `check_pass_result` answers, and what it changes. -/
inductive Checked (cfg : Config T) (sameMtime : Bool) (j : Job T L) (env : TestEnv T L)
    (m : TestManager T L) : PassCheckingOutcome → TestManager T L → Prop
  | accept (hsuccess : env.success) (hlimit : env.tooLarge cfg.maxImprovement = .ok false)
      (hvariant : env.variant = some v)
      (hchanged : ¬ TestCase.filecmpCmp sameMtime (m.disk m.currentTestCase) v) :
      Checked cfg sameMtime j env m .accept m
  | ignore : Checked cfg sameMtime j env m .ignore { m with crashDirs := n }
  | stop : Checked cfg sameMtime j env m .stop { m with crashDirs := n }
  | stuck (hi : j.passId = some i) (hc : m.passContexts[i]? = some c) :
      Checked cfg sameMtime j env m .stop
        { m with crashDirs := n, passContexts := m.passContexts.set i { c with defunct := true } }

theorem giveUp_checked {env : TestEnv T L} (h : m.giveUp cfg j env = .ok (outcome, m')) :
    Checked cfg sameMtime j env m outcome m' := by
  rw [giveUp] at h
  split at h
  · cases h
    exact .ignore
  · rename_i i hi
    split at h
    · cases h
      exact .ignore
    · obtain ⟨c, hc, h⟩ := except_bind_ok.1 h
      split at h
      · obtain ⟨⟨made, m₁⟩, hreport, h⟩ := except_bind_ok.1 h
        obtain ⟨n, rfl⟩ := reportPassBug_ok hreport
        cases h
        exact .stuck hi (context_ok.1 hc)
      · cases h
        exact .ignore

theorem checkPassResult_checked {env : TestEnv T L}
    (h : m.checkPassResult cfg sameMtime j env = .ok (outcome, m')) :
    Checked cfg sameMtime j env m outcome m' := by
  rw [checkPassResult] at h
  split at h
  · rename_i hsuccess
    obtain ⟨tooLarge, hlimit, h⟩ := except_bind_ok.1 h
    split at h
    · cases h
      exact .ignore
    · rename_i hsmall
      rw [Bool.not_eq_true] at hsmall
      split at h
      · cases h
      · rename_i v hvariant
        split at h
        · split at h
          · cases h
            exact .ignore
          · obtain ⟨⟨made, m₁⟩, hreport, h⟩ := except_bind_ok.1 h
            obtain ⟨n, rfl⟩ := reportPassBug_ok hreport
            cases h
            cases made with
            | true => exact .ignore
            | false => exact .stop
        · rename_i hchanged
          cases h
          exact .accept hsuccess (hsmall ▸ hlimit) hvariant hchanged
  · split at h
    · split at h
      · exact giveUp_checked h
      · cases h
    · cases h
      exact .stop
    · split at h
      · exact giveUp_checked h
      · obtain ⟨⟨made, m₁⟩, hreport, h⟩ := except_bind_ok.1 h
        obtain ⟨n, rfl⟩ := reportPassBug_ok hreport
        cases h
        exact .stop
    · exact giveUp_checked h
    · exact giveUp_checked h

section
variable {env : TestEnv T L}

theorem reportPassBug_same (h : m'.reportPassBug cfg env = .ok (made, m₁))
    (hcrash : m'.crashDirs = m.crashDirs) : ∃ m₂, m.reportPassBug cfg env = .ok (made, m₂) := by
  rw [reportPassBug, hcrash] at h
  rw [reportPassBug]
  split at h
  · rename_i hfull
    cases h
    exact ⟨_, if_pos hfull⟩
  · rename_i hfull
    rw [if_neg hfull]
    split at h
    · rename_i hfiles
      rw [if_pos hfiles]
      split at h
      · cases h
      · rename_i hdie
        cases h
        exact ⟨_, if_neg hdie⟩
    · cases h

theorem giveUp_same (h : m'.giveUp cfg j env = .ok (outcome, m₁))
    (hcrash : m'.crashDirs = m.crashDirs)
    (hcontexts : m'.passContexts = modifyAt j.passId (·.dropRunning j.order) m.passContexts) :
    ∃ m₂, m.giveUp cfg j env = .ok (outcome, m₂) := by
  rw [giveUp] at h ⊢
  split at h
  · cases h
    exact ⟨_, rfl⟩
  · rename_i i hi
    rw [hi] at hcontexts
    simp only
    split at h
    · rename_i hnever
      cases h
      exact ⟨_, if_pos hnever⟩
    · rename_i hnever
      rw [if_neg hnever]
      obtain ⟨c', hc', h⟩ := except_bind_ok.1 h
      rw [context_ok, hcontexts] at hc'
      obtain ⟨c, hc, rfl⟩ := modifyAt_self hc'
      rw [context_ok.2 hc]
      have hdefunct : (c.dropRunning j.order).defunct = c.defunct := rfl
      have hsince : (c.dropRunning j.order).jobsSinceLastSuccess = c.jobsSinceLastSuccess := rfl
      rw [hdefunct, hsince] at h
      split at h
      · rename_i hstuck
        obtain ⟨⟨made, m₃⟩, hreport, h⟩ := except_bind_ok.1 h
        obtain ⟨m₂, hreport'⟩ := reportPassBug_same hreport hcrash
        cases h
        refine ⟨m₂.setContext i { c with defunct := true }, ?_⟩
        simp only [bind, Except.bind, if_pos hstuck, hreport']
        rfl
      · rename_i hstuck
        cases h
        refine ⟨m, ?_⟩
        simp only [bind, Except.bind, if_neg hstuck]
        rfl

/-- The answer is not about what the main process has changed just before. -/
theorem checkPassResult_same (h : m'.checkPassResult cfg sameMtime j env = .ok (outcome, m₁))
    (hdisk : m'.disk = m.disk) (hcur : m'.currentTestCase = m.currentTestCase)
    (hcrash : m'.crashDirs = m.crashDirs)
    (hcontexts : m'.passContexts = modifyAt j.passId (·.dropRunning j.order) m.passContexts) :
    ∃ m₂, m.checkPassResult cfg sameMtime j env = .ok (outcome, m₂) := by
  rw [checkPassResult, hdisk, hcur] at h
  rw [checkPassResult]
  split at h
  · rename_i hsuccess
    rw [if_pos hsuccess]
    obtain ⟨tooLarge, hlimit, h⟩ := except_bind_ok.1 h
    rw [hlimit]
    simp only [bind, Except.bind] at h ⊢
    split at h
    · rename_i hlarge
      cases h
      exact ⟨_, if_pos hlarge⟩
    · rename_i hlarge
      rw [if_neg hlarge]
      split at h
      · cases h
      · split at h
        · rename_i hsame
          rw [if_pos hsame]
          split at h
          · rename_i hsilent
            cases h
            exact ⟨_, if_pos hsilent⟩
          · rename_i hsilent
            rw [if_neg hsilent]
            obtain ⟨⟨made, m₃⟩, hreport, h⟩ := except_bind_ok.1 h
            obtain ⟨m₂, hreport'⟩ := reportPassBug_same hreport hcrash
            cases h
            exact ⟨m₂, by rw [hreport']; rfl⟩
        · rename_i hsame
          cases h
          exact ⟨_, if_neg hsame⟩
  · rename_i hsuccess
    rw [if_neg hsuccess]
    split at h
    · split at h
      · rename_i hexit
        rw [if_pos hexit]
        exact giveUp_same h hcrash hcontexts
      · cases h
    · cases h
      exact ⟨_, rfl⟩
    · split at h
      · rename_i hsilent
        rw [if_pos hsilent]
        exact giveUp_same h hcrash hcontexts
      · rename_i hsilent
        rw [if_neg hsilent]
        obtain ⟨⟨made, m₃⟩, hreport, h⟩ := except_bind_ok.1 h
        obtain ⟨m₂, hreport'⟩ := reportPassBug_same hreport hcrash
        cases h
        exact ⟨m₂, by rw [hreport']; rfl⟩
    · exact giveUp_same h hcrash hcontexts
    · exact giveUp_same h hcrash hcontexts

end

/-- Whether a result is accepted depends on the contents of the test case only. -/
theorem checkPassResult_accept {env : TestEnv T L}
    (h : m.checkPassResult cfg sameMtime j env = .ok (.accept, m₁)) (hdisk : m'.disk = m.disk)
    (hcur : m'.currentTestCase = m.currentTestCase) :
    m'.checkPassResult cfg sameMtime j env = .ok (.accept, m') := by
  cases checkPassResult_checked h with
  | accept hsuccess hlimit hvariant hchanged =>
    rw [← hdisk, ← hcur] at hchanged
    rw [checkPassResult, if_pos hsuccess, hlimit, hvariant]
    exact if_neg hchanged

theorem context_error {m : TestManager T L} (h : m.context i = .error err) :
    err = .indexError := by
  rw [context] at h
  split at h
  · cases h
  · cases h
    rfl

theorem popRunning_error (h : m.popRunning j = .error err) : err ≠ .unicodeDecodeError := by
  rw [popRunning] at h
  split at h
  · cases h
  · split at h
    · rcases except_bind_error.1 h with h | ⟨c, _, h⟩
      · rw [context_error h]
        exact fun he => by cases he
      · rcases except_bind_error.1 h with h | ⟨c', _, h⟩
        · rw [PassContext.popRunning] at h
          split at h
          · cases h
          · cases h
            exact fun he => by cases he
        · cases h
    · cases h

theorem handleTimedOutJob_error (h : m.handleTimedOutJob j = .error err) :
    err ≠ .unicodeDecodeError := by
  rcases except_bind_error.1 h with h | ⟨m₁, _, h⟩
  · exact popRunning_error h
  · split at h
    · cases h
    · rcases except_bind_error.1 h with h | ⟨c, _, h⟩
      · rw [context_error h]
        exact fun he => by cases he
      · cases h

theorem handleFinishedInitJob_error (h : m.handleFinishedInitJob j env = .error err) :
    err ≠ .unicodeDecodeError := by
  rw [handleFinishedInitJob] at h
  split at h
  · cases h
    exact fun he => by cases he
  · rcases except_bind_error.1 h with h | ⟨c, _, h⟩
    · rw [context_error h]
      exact fun he => by cases he
    · split at h
      · cases h
      · cases h
        exact fun he => by cases he

theorem sizeImprovement_error {env : TestEnv T L} (h : env.sizeImprovement = .error err) :
    err ≠ .unicodeDecodeError := by
  rw [TestEnv.sizeImprovement] at h
  split at h
  · split at h
    · cases h
    · cases h
      exact fun he => by cases he
  · cases h
    exact fun he => by cases he

theorem reportPassBug_error {env : TestEnv T L} (h : m.reportPassBug cfg env = .error err) :
    err ≠ .unicodeDecodeError := by
  rw [reportPassBug] at h
  split at h
  · cases h
  · split at h
    · split at h
      · cases h
        exact fun he => by cases he
      · cases h
    · cases h
      exact fun he => by cases he

theorem giveUp_error {env : TestEnv T L} (h : m.giveUp cfg j env = .error err) :
    err ≠ .unicodeDecodeError := by
  rw [giveUp] at h
  split at h
  · cases h
  · split at h
    · cases h
    · rcases except_bind_error.1 h with h | ⟨c, _, h⟩
      · rw [context_error h]
        exact fun he => by cases he
      · split at h
        · rcases except_bind_error.1 h with h | ⟨x, _, h⟩
          · exact reportPassBug_error h
          · cases h
        · cases h

theorem checkPassResult_error {env : TestEnv T L}
    (h : m.checkPassResult cfg sameMtime j env = .error err) : err ≠ .unicodeDecodeError := by
  rw [checkPassResult] at h
  split at h
  · rcases except_bind_error.1 h with h | ⟨big, _, h⟩
    · unfold TestEnv.tooLarge at h
      split at h
      · cases h
      · rcases except_bind_error.1 h with h | ⟨x, _, h⟩
        · exact sizeImprovement_error h
        · cases h
    · split at h
      · cases h
      · split at h
        · cases h
          exact fun he => by cases he
        · split at h
          · split at h
            · cases h
            · rcases except_bind_error.1 h with h | ⟨x, _, h⟩
              · exact reportPassBug_error h
              · cases h
          · cases h
  · split at h
    · split at h
      · exact giveUp_error h
      · cases h
        exact fun he => by cases he
    · cases h
    · split at h
      · exact giveUp_error h
      · rcases except_bind_error.1 h with h | ⟨x, _, h⟩
        · exact reportPassBug_error h
        · cases h
    · exact giveUp_error h
    · exact giveUp_error h

theorem finishTransform_error {env : TestEnv T L}
    (h : m.finishTransform outcome j env = .error err) : err ≠ .unicodeDecodeError := by
  unfold finishTransform at h
  split at h
  · split at h
    · cases h
      exact fun he => by cases he
    · rcases except_bind_error.1 h with h | ⟨c, _, h⟩
      · rw [context_error h]
        exact fun he => by cases he
      · cases h
  · cases h
  · rcases except_bind_error.1 h with h | ⟨m₁, _, h⟩
    · rcases except_bind_error.1 h with h | ⟨x, _, h⟩
      · exact sizeImprovement_error h
      · split at h
        · cases h
          exact fun he => by cases he
        · simp only at h
          split at h
          · cases h
          · cases h
    · simp only at h
      split at h
      · cases h
      · cases h
        exact fun he => by cases he
      · rcases except_bind_error.1 h with h | ⟨c, _, h⟩
        · rw [context_error h]
          exact fun he => by cases he
        · cases h

/-- The manager itself raises no error about text while it handles a job. -/
theorem processJob_error (h : m.processJob cfg sameMtime j = .error err) :
    err ≠ .unicodeDecodeError ∨ j.future = .failed err := by
  rw [processJob] at h
  split at h
  · cases h
  · exact .inl (handleTimedOutJob_error h)
  · rename_i err' hfuture
    split at h
    · exact .inl (handleTimedOutJob_error h)
    · cases h
      exact .inr hfuture
  · split at h
    · exact .inl (handleFinishedInitJob_error h)
    · rcases except_bind_error.1 h with h | ⟨m₁, _, h⟩
      · exact .inl (popRunning_error h)
      · rcases except_bind_error.1 h with h | ⟨x, _, h⟩
        · exact .inl (checkPassResult_error h)
        · rcases except_bind_error.1 h with h | ⟨m₂, _, h⟩
          · exact .inl (finishTransform_error h)
          · cases h

theorem addCommittedSuccess_error {s : PassStatistic}
    (h : s.addCommittedSuccess delta name = .error err) : err ≠ .unicodeDecodeError := by
  rw [PassStatistic.addCommittedSuccess.eq_def] at h
  split at h
  · cases h
  · split at h
    · cases h
    · cases h
      intro h
      cases h

theorem commitStatistics_error {cand : SuccessCandidate L}
    (h : commitStatistics cand s = .error err) : err ≠ .unicodeDecodeError := by
  rw [commitStatistics] at h
  split at h
  · rcases except_bind_error.1 h with h | ⟨t, _, h⟩
    · exact addCommittedSuccess_error h
    · obtain ⟨u, a, _, h⟩ := foldlM_error h
      exact addCommittedSuccess_error h
  · split at h
    · exact addCommittedSuccess_error h
    · cases h
      exact fun he => by cases he

theorem maybeUpdateSuccessCandidate_ok {env : TestEnv T L}
    (h : m.maybeUpdateSuccessCandidate j env = .ok m') :
    ∃ improvement v cand, env.sizeImprovement = .ok improvement ∧ env.variant = some v ∧
      (cand = some ⟨j.order, j.pass, j.passId, env.state, -improvement, v⟩ ∨
        cand = m.successCandidate) ∧ cand ≠ none ∧ m' = { m with successCandidate := cand } := by
  obtain ⟨improvement, himprovement, h⟩ := except_bind_ok.1 h
  split at h
  · cases h
  · rename_i v hv
    simp only at h
    split at h
    · cases h
      exact ⟨improvement, v, _, himprovement, hv, .inl rfl, nofun, rfl⟩
    · rename_i hworse
      cases h
      refine ⟨improvement, v, _, himprovement, hv, .inr rfl, fun hnone => hworse ?_, rfl⟩
      rw [hnone]
      rfl

end

variable [DecidableEq T] {cfg : Config T} {m m' : TestManager T L} {e : Event T L}

theorem endScheduling_move (hp : m.phase.kind = .batch) :
    Move cfg m e (m.endScheduling ready) := by
  have hk := endScheduling_kind ready m
  apply Move.control
  · rw [hp]
    exact hk
  · intro h
    rw [endScheduling] at hk
    simp only [h] at hk
    cases hk
  · intro b h
    rw [endScheduling] at hk
    simp only [h] at hk
    cases hk

theorem initStep_move (hp : m.phase = .scheduling ready) (h : m.initStep cfg ch ready = some m') :
    Move cfg m e m' := by
  rw [initStep] at h
  split at h
  · cases h
    exact endScheduling_move (by rw [hp]; rfl)
  · split at h
    · cases h
      exact .control (by rw [hp]; rfl) nofun nofun
    · rename_i c i hfind
      obtain ⟨hc, hcan⟩ := findInit_some hfind
      split at h
      · rename_i hd
        cases h
        exact .init hp hc hcan (Option.isNone_iff_eq_none.1 hd)
      · cases h

theorem raise_effect (herr : err ≠ .unicodeDecodeError) : Effect cfg m e (m.raise err) :=
  .inr ⟨err, .manager rfl rfl herr⟩

theorem restartStep_move (hp : m.phase = .restarting ready)
    (h : m.restartStep ch ready = some m') : Effect cfg m e m' := by
  rw [restartStep] at h
  split at h
  · cases h
    exact .inl (.control (by rw [hp]; rfl) nofun nofun)
  · rename_i i queue hq
    split at h
    · split at h
      · cases h
        exact raise_effect nofun
      · rename_i c hc
        split at h
        · rename_i hcan
          obtain ⟨hstage, hstate⟩ := hcan
          have hstate := Option.isNone_iff_eq_none.1 hstate
          simp only at h
          split at h
          · rename_i hcan
            split at h
            · rename_i hd
              cases h
              exact .inl (.restart hp hq hc hstage hstate hcan (Option.isNone_iff_eq_none.1 hd))
            · cases h
          · cases h
            exact .inl (.pop hp hq hc hstage hstate)
        · cases h
          exact raise_effect nofun
    · cases h
      exact .inl (.control (by rw [hp]; rfl) nofun nofun)

theorem foldStep_move (hp : m.phase = .folding ready) (h : m.foldStep ch ready = some m') :
    Move cfg m e m' := by
  rw [foldStep] at h
  split at h
  · rename_i hinterleaving
    simp only at h
    split at h
    · rename_i subStates hprepare
      split at h
      · rename_i hd
        cases h
        exact .fold hp hinterleaving (Prod.ext hprepare rfl) (Option.isNone_iff_eq_none.1 hd)
      · cases h
    · cases h
      exact .noFold hp (FoldingManager.maybePrepareFoldingJob_candidates _ _ _ _)
  · cases h
    have hmove : Move cfg m e { m with
        foldingManager := m.foldingManager, phase := .transforming ready } := .noFold hp rfl
    exact hmove

theorem transformStep_move (hp : m.phase = .transforming ready)
    (h : m.transformStep ch ready = some m') : Effect cfg m e m' := by
  rw [transformStep] at h
  simp only at h
  split at h
  · cases h
    exact .inl (.noTransform hp (endScheduling_kind ready _))
  · rename_i c i hpick
    obtain ⟨hc, hcan⟩ := pickTransform_some hpick
    split at h
    · cases h
      exact .inr ⟨.assertionError, .manager rfl rfl nofun⟩
    · rename_i s hs
      split at h
      · rename_i hd
        cases h
        rw [scheduleTransform]
        split
        · exact .inr ⟨.assertionError, .manager rfl rfl nofun⟩
        · rename_i hroot
          cases hadvance : c.pass.advance (ch.rnd m.passContexts.length 0)
              (m.disk m.currentTestCase) s with
          | error err => exact .inr ⟨err, .advance rfl rfl hp hc hcan hs hadvance⟩
          | ok next =>
            exact .inl (.transform hp hc hcan hs (fun h => hroot (by rw [h]; rfl)) hadvance
              (Option.isNone_iff_eq_none.1 hd))
      · cases h

theorem accepts_not_done (hfuture : j.future ≠ .done) : m.accepts cfg e j = false := by
  unfold accepts
  split
  · rename_i hdone _
    exact absurd hdone hfuture
  · rfl

theorem accepts_done (hp : m.phase = .completing ready (j.order :: todo))
    (hfuture : j.future = .done) (hwork : j.work = .transform env)
    (hcheck : m'.checkPassResult cfg ch.sameMtime j env = .ok (outcome, m₁))
    (hdisk : m'.disk = m.disk) (hcur : m'.currentTestCase = m.currentTestCase) :
    m.accepts cfg (.main ch) j = decide (outcome = .accept) := by
  simp only [accepts, hp, hfuture, hwork]
  split
  · rename_i m₂ hm
    have haccept := checkPassResult_accept hm hdisk hcur
    rw [haccept] at hcheck
    cases hcheck
    rfl
  · rename_i hne
    symm
    apply decide_eq_false
    rintro rfl
    exact hne _ (checkPassResult_accept hcheck hdisk.symm hcur.symm)

theorem handleTimedOutJob_move (hp : m.phase = .completing ready (j.order :: todo)) (hj : j ∈ m.jobs)
    (hfuture : j.future ≠ .pending ∧ j.future ≠ .done)
    (h : ({ m with phase := .completing ready todo } : TestManager T L).handleTimedOutJob j =
      .ok m') : Move cfg m e m' := by
  obtain ⟨m₁, hpop, h⟩ := except_bind_ok.1 h
  have hmove : Move cfg m e _ :=
    .timedOut hp hj (accepts_not_done hfuture.2) hfuture
  rw [popRunning_ok hpop] at h
  split at h
  · rename_i hi
    cases h
    rw [hi] at hmove ⊢
    exact hmove
  · rename_i i hi
    obtain ⟨c, hc, h⟩ := except_bind_ok.1 h
    cases h
    rw [hi] at hc
    rw [hi] at hmove ⊢
    rw [← modifyAt_modifyAt _ PassContext.timedOut, modifyAt_some (context_ok.1 hc)] at hmove
    exact hmove

theorem handleFinishedInitJob_move (hp : m.phase = .completing ready (j.order :: todo))
    (hj : j ∈ m.jobs) (hfuture : j.future = .done) (hwork : j.work = .init env)
    (h : ({ m with phase := .completing ready todo } : TestManager T L).handleFinishedInitJob j env =
      .ok m') : Move cfg m e m' := by
  rw [handleFinishedInitJob] at h
  split at h
  · cases h
  · rename_i i hi
    obtain ⟨c, hc, h⟩ := except_bind_ok.1 h
    split at h
    · rename_i hstage
      have hmove : Move cfg m e _ := .initialized
        hp hj hfuture hwork hi (context_ok.1 hc) hstage
      cases h
      rw [releaseJob_none rfl]
      exact hmove
    · cases h

theorem finishTransform_move (hp : m.phase = .completing ready (j.order :: todo)) (hj : j ∈ m.jobs)
    (hfuture : j.future = .done) (hwork : j.work = .transform env)
    (haccepts : m.accepts cfg e j = decide (outcome = .accept))
    (hstops : outcome = .stop → m.stops cfg e j)
    (hchecked : Checked cfg sameMtime j env
      { m with
        passStatistic := m.passStatistic.addExecuted j.pass
        passContexts := modifyAt j.passId (·.dropRunning j.order) m.passContexts
        phase := .completing ready todo } outcome m₁)
    (h : m₁.finishTransform outcome j env = .ok m₂) (hm' : m' = m₂.releaseJob j) :
    Move cfg m e m' := by
  subst hm'
  cases hchecked with
  | accept hsuccess _ hvariant hchanged =>
    obtain ⟨m₃, hupdate, h⟩ := except_bind_ok.1 h
    obtain ⟨improvement, v', cand, himprovement, hv, hcand, hsome, rfl⟩ :=
      maybeUpdateSuccessCandidate_ok hupdate
    cases hvariant.symm.trans hv
    have hmove (n : Nat) : Move cfg m e _ := .accepted (n := n)
      hp hj hwork hsuccess himprovement hv hchanged hcand haccepts hsome
    simp only at h
    split at h
    · rename_i hi
      cases h
      have hmove := hmove 0
      rw [hi] at hmove ⊢
      exact hmove
    · cases h
    · rename_i i counter hi hcounter
      obtain ⟨c, hc, h⟩ := except_bind_ok.1 h
      cases h
      have hmove := hmove counter
      rw [← modifyAt_modifyAt _ (PassContext.accepted env.state counter)] at hmove
      rw [hi] at hc hmove ⊢
      rw [modifyAt_some (context_ok.1 hc)] at hmove
      exact hmove
  | ignore =>
    cases h
    refine Move.ignored hp hj hwork ?_ haccepts hfuture
    split
    · exact FoldingManager.onTransformJobFailure_candidates _ _
    · rfl
  | stop =>
    rw [finishTransform] at h
    split at h
    · cases h
    · rename_i i hi
      obtain ⟨c', hc', h⟩ := except_bind_ok.1 h
      cases h
      obtain ⟨c, hc, heq⟩ := modifyAt_self (hi ▸ context_ok.1 hc')
      rw [heq]
      simp only [setContext]
      rw [hi, modifyAt_some hc, List.set_set]
      exact .stopped (b := c.defunct) hp hj hwork hi hc (fun h => h) haccepts (hstops rfl)
  | @stuck _ i c' hi hc' =>
    rw [finishTransform, hi] at h
    obtain ⟨c'', hc'', h⟩ := except_bind_ok.1 h
    cases h
    simp only [hi] at hc' hc'' ⊢
    obtain ⟨c, hc, rfl⟩ := modifyAt_self hc'
    have hlt := (List.getElem?_eq_some_iff.1 hc').1
    have heq := (List.getElem?_set_self hlt).symm.trans (context_ok.1 hc'')
    cases heq
    simp only [setContext]
    rw [modifyAt_some hc, List.set_set, List.set_set]
    exact .stopped (b := true) hp hj hwork hi hc (fun _ => rfl) haccepts (hstops rfl)

theorem handleFinishedTransformJob_move (hp : m.phase = .completing ready (j.order :: todo))
    (hj : j ∈ m.jobs) (hfuture : j.future = .done) (hwork : j.work = .transform env)
    (h : ({ m with phase := .completing ready todo } : TestManager T L).handleFinishedTransformJob
      cfg ch.sameMtime j env = .ok m') : Move cfg m (.main ch) m' := by
  obtain ⟨m₁, hpop, h⟩ := except_bind_ok.1 h
  obtain ⟨⟨outcome, m₂⟩, hcheck, h⟩ := except_bind_ok.1 h
  obtain ⟨m₃, hfinish, h⟩ := except_bind_ok.1 h
  cases h
  have hpopped := popRunning_ok hpop
  have haccepts := accepts_done hp hfuture hwork hcheck (by rw [hpopped]) (by rw [hpopped])
  have hchecked := checkPassResult_checked hcheck
  rw [hpopped] at hchecked
  have hdrop : (fun c : PassContext L => if j.isTransform then c.dropRunning j.order else c) =
      (·.dropRunning j.order) := by
    rw [Job.isTransform, hwork]
    rfl
  rw [hdrop] at hchecked hpopped
  have hstops : outcome = .stop → m.stops cfg (.main ch) j := by
    rintro rfl
    obtain ⟨m', hcheck⟩ := checkPassResult_same (m := m) hcheck (by rw [hpopped]) (by rw [hpopped])
      (by rw [hpopped]) (by rw [hpopped])
    simp only [stops, hfuture, hwork, hcheck]
  exact finishTransform_move hp hj hfuture hwork haccepts hstops hchecked hfinish rfl

theorem completeStep_move (hp : m.phase = .completing ready todo)
    (h : m.completeStep cfg ch ready todo = m') : Effect cfg m (.main ch) m' := by
  subst h
  cases todo with
  | nil =>
    rw [completeStep]
    split
    · exact .inl (.control (by rw [hp]; rfl) nofun nofun)
    · exact .inl (.control (by rw [hp]; rfl) nofun nofun)
  | cons o todo =>
    have hcontrol : Move cfg m (.main ch) { m with phase := .completing ready todo } :=
      .control (by rw [hp]; rfl) nofun nofun
    rw [completeStep]
    simp only
    split
    · exact .inl hcontrol
    · rename_i j hfind
      have hj := List.mem_of_find?_eq_some hfind
      have ho : j.order = o := by simpa using List.find?_some hfind
      subst ho
      cases hprocess : ({ m with phase := .completing ready todo } : TestManager T L).processJob cfg
          ch.sameMtime j with
      | error err =>
        rcases processJob_error hprocess with herr | hfuture
        · exact .inr ⟨err, .manager rfl rfl herr⟩
        · exact .inr ⟨err, .job rfl rfl hp hj hfuture⟩
      | ok m' =>
        apply Or.inl
        rw [processJob] at hprocess
        split at hprocess
        · cases hprocess
          exact hcontrol
        · rename_i hfuture
          exact handleTimedOutJob_move hp hj (by rw [hfuture]; exact ⟨nofun, nofun⟩) hprocess
        · rename_i hfuture
          split at hprocess
          · exact handleTimedOutJob_move hp hj (by rw [hfuture]; exact ⟨nofun, nofun⟩) hprocess
          · cases hprocess
        · rename_i hfuture
          split at hprocess
          · rename_i env hwork
            exact handleFinishedInitJob_move hp hj hfuture hwork hprocess
          · rename_i env hwork
            exact handleFinishedTransformJob_move hp hj hfuture hwork hprocess

theorem nextTestCase_move (hp : m.phase = .testCases) (h : m.nextTestCase cfg = m') :
    Move cfg m e m' := by
  subst h
  rw [nextTestCase]
  split
  · exact .close hp
  · rename_i t rest hrest
    simp only
    split
    · exact .skipEmpty hp hrest
    · rename_i hsize
      rw [openTestCase]
      simp only
      split
      · rename_i item hitem
        apply Move.cacheHit (i := item) (f := { m.frame with rest := rest }) _ hrest
        apply CacheHit.mk hp
        · rw [hrest]
          rfl
        · exact hsize
        · cases hno : cfg.noCache with
          | true => simp [hno] at hitem
          | false => rfl
        · cases hno : cfg.noCache with
          | true => simp [hno] at hitem
          | false => simpa [hno] using hitem
      · exact .openTestCase hp hrest

theorem outerLoop_move (hp : m.phase = .outer) (h : m.outerLoop cfg ch = m') :
    Effect cfg m e m' := by
  subst h
  rw [outerLoop]
  split
  · rw [startBatch]
    split
    · exact .inl (.startBatch hp)
    · exact .inr ⟨.assertionError, .manager rfl rfl nofun⟩
  · exact .inl (.control (by rw [hp]; rfl) nofun nofun)

theorem afterBatch_move (hp : m.phase = .afterBatch) (h : m.afterBatch = m') :
    Effect cfg m e m' := by
  subst h
  rw [afterBatch]
  split
  · rename_i hcand
    exact .inl (.noCandidate hp hcand)
  · rename_i cand hcand
    rw [processResult]
    simp only
    split
    · rename_i err herr
      exact .inr ⟨err, .commit rfl hp hcand rfl (commitStatistics_error herr)⟩
    · rename_i stat hstat
      exact .inl (.commit hp hcand rfl hstat)

theorem checkProgress_move (hp : m.phase = .checking isSuccess)
    (h : m.checkProgress cfg isSuccess = m') : Effect cfg m e m' := by
  subst h
  have hfinished : Move cfg m e { m with phase := .finished } :=
    .control (by rw [hp]; rfl) nofun nofun
  rw [checkProgress]
  split
  · exact .inl hfinished
  · rename_i hgoes
    split
    · exact raise_effect nofun
    · split
      · exact .inl hfinished
      · have hsuccess : isSuccess = true := by
          cases isSuccess with
          | true => rfl
          | false => exact absurd (.inr rfl) hgoes
        exact .inl (.control (by rw [hp]; rfl) (fun _ => by rw [hp, hsuccess]) nofun)

theorem finishTestCase_move (hp : m.phase = .finished) (h : m.finishTestCase cfg = m') :
    Effect cfg m e m' := by
  subst h
  rw [finishTestCase]
  split
  · exact .inl (.finishTestCase hp (.inl rfl))
  · split
    · exact raise_effect nofun
    · rename_i tc hcopied
      exact .inl (.finishTestCase hp (.inr ⟨_, tc, hcopied, rfl⟩))

theorem loopTest_move (hp : m.phase = .loop ready) (h : m.loopTest ready = m') :
    Move cfg m e m' := by
  subst h
  rw [loopTest]
  split
  · exact .control (by rw [hp]; rfl) nofun nofun
  · exact .control (by rw [hp]; rfl) nofun nofun

theorem mainStep_effect (h : m.mainStep cfg ch = some m') : Effect cfg m (.main ch) m' := by
  rw [mainStep] at h
  split at h
  · cases h
  · rename_i hp
    exact .inl (nextTestCase_move hp (Option.some.inj h))
  · rename_i hp
    exact outerLoop_move hp (Option.some.inj h)
  · rename_i ready hp
    exact .inl (loopTest_move hp (Option.some.inj h))
  · rename_i ready hp
    exact .inl (initStep_move hp h)
  · rename_i ready hp
    exact restartStep_move hp h
  · rename_i ready hp
    exact .inl (foldStep_move hp h)
  · rename_i ready hp
    exact transformStep_move hp h
  · rename_i ready hp
    cases h
    exact .inl (.cancelLost hp)
  · rename_i ready todo hp
    exact completeStep_move hp (Option.some.inj h)
  · rename_i hp
    cases h
    exact .inl (.endBatch hp)
  · rename_i hp
    exact afterBatch_move hp (Option.some.inj h)
  · rename_i isSuccess hp
    exact checkProgress_move hp (Option.some.inj h)
  · rename_i hp
    exact finishTestCase_move hp (Option.some.inj h)
  · cases h

theorem startRun_effect (hp : m.phase = .idle) (hsorted : call.sortedTestCases.Perm cfg.testCases) :
    Effect cfg m e (m.startRun cfg call name) := by
  rw [startRun]
  split
  · exact raise_effect nofun
  · exact .inl (.call hp hsorted.subset)

theorem runPasses_effect (hp : m.phase = .idle)
    (hsorted : call.sortedTestCases.Perm cfg.testCases) :
    Effect cfg m e (m.runPasses cfg call) := by
  unfold runPasses
  split
  · split
    · exact startRun_effect hp hsorted
    · exact startRun_effect hp hsorted
    · split
      · exact startRun_effect hp hsorted
      · exact .inl (.control (p := m.phase) rfl (by rw [hp]; nofun) (by rw [hp]; nofun))
  · exact raise_effect nofun

theorem work_move {f : Job T L → Option (Job T L)} (h : m.work o f = some m')
    (hf : ∀ j j', j.order = o → f j = some j' → JobStep cfg m e j j') : Move cfg m e m' := by
  rw [work] at h
  split at h
  · cases h
  · rename_i j hfind
    have hj := List.mem_of_find?_eq_some hfind
    have ho : j.order = o := by simpa using List.find?_some hfind
    subst ho
    split at h
    · rename_i hfuture
      obtain ⟨j', hj', rfl⟩ := Option.map_eq_some_iff.1 h
      exact .work hj hfuture (hf j j' rfl hj')
    · cases h

theorem copyTestCase_step (h : m.copyTestCase cfg t j = some j') : JobStep cfg m e j j' := by
  rw [copyTestCase] at h
  split at h
  · cases h
  · rename_i env hwork
    split at h
    · rename_i hcond
      obtain ⟨ht, hcopies, hresult, _⟩ := hcond
      split at h
      · rename_i hcopied
        cases h
        exact .copy hwork ht hcopies hresult hcopied
      · cases h
        exact .ended fun _ => by rw [Job.isTransform, hwork]
    · cases h

theorem callTransform_step (h : m.callTransform cfg seed j = some j') :
    JobStep cfg m (.transform j.order seed) j j' := by
  rw [callTransform] at h
  split at h
  · cases h
  · rename_i env hwork
    split at h
    · rename_i hcond
      cases h
      exact .transform hwork hcond.1 hcond.2 rfl rfl
    · cases h

theorem runTest_step (h : m.runTest cfg j = some j') : JobStep cfg m e j j' := by
  rw [runTest] at h
  split at h
  · cases h
  · rename_i env hwork
    split at h
    · rename_i hcond
      cases h
      exact .test hwork hcond.1 hcond.2
    · cases h

theorem runInit_move (h : m.runInit o seed = some m') : Move cfg m e m' := by
  rw [runInit] at h
  split at h
  · cases h
  · rename_i j hfind
    have hj := List.mem_of_find?_eq_some hfind
    have ho : j.order = o := by simpa using List.find?_some hfind
    subst ho
    split at h
    · cases h
    · rename_i env hwork
      simp only [work, hfind] at h
      simp only [initOutcome] at h
      obtain ⟨m₁, hm₁, h⟩ := Option.map_eq_some_iff.1 h
      split at hm₁
      · rename_i hfuture
        cases hm₁
        cases hrun : env.run m.reader seed (m.disk env.testCase) with
        | error err =>
          rw [hrun] at h
          subst h
          have hstep : JobStep cfg m e j { j with future := .failed err } := .ended nofun
          rw [← hwork]
          exact .work hj hfuture hstep
        | ok outcome =>
          rw [hrun] at h
          subst h
          exact .initRun hj hfuture hwork hrun
      · cases hm₁

end TestManager

theorem step_effect [DecidableEq T] {cfg : Config T} {m m' : TestManager T L}
    (h : step cfg m e = some m') : Effect cfg m e m' := by
  unfold step at h
  split at h
  · split at h
    · rename_i hcond
      cases h
      exact TestManager.runPasses_effect hcond.1 hcond.2
    · cases h
  · exact TestManager.mainStep_effect h
  · exact .inl (TestManager.work_move h fun j j' _ => TestManager.copyTestCase_step)
  · apply Or.inl
    apply TestManager.work_move h
    rintro j j' rfl hj
    exact TestManager.callTransform_step hj
  · exact .inl (TestManager.work_move h fun j j' _ => TestManager.runTest_step)
  · exact .inl (TestManager.runInit_move h)
  · apply Or.inl
    apply TestManager.work_move h
    intro j j' _ hj
    cases hj
    exact .ended nofun
  · apply Or.inl
    apply TestManager.work_move h
    intro j j' _ hj
    cases hj
    apply JobStep.ended
    intro hdone
    split at hdone
    · assumption
    · cases hdone

theorem step_move [DecidableEq T] {cfg : Config T} {m m' : TestManager T L}
    (h : step cfg m e = some m') (halive : m'.Alive) : Move cfg m e m' := by
  rcases step_effect h with hmove | ⟨err, hraised⟩
  · exact hmove
  · exact absurd (by rw [hraised.phase]; rfl) halive

theorem TestManager.work_phase {m m' : TestManager T L} (h : m.work o f = some m') :
    m'.phase = m.phase := by
  rw [work] at h
  split at h
  · cases h
  · split at h
    · obtain ⟨j', _, rfl⟩ := Option.map_eq_some_iff.1 h
      rfl
    · cases h

theorem TestManager.runInit_phase {m m' : TestManager T L} (h : m.runInit o seed = some m') :
    m'.phase = m.phase := by
  rw [runInit] at h
  split at h
  · cases h
  · split at h
    · cases h
    · obtain ⟨m₁, hm₁, h⟩ := Option.map_eq_some_iff.1 h
      rw [← work_phase hm₁]
      split at h
      · rw [h]
      · rw [← h]

theorem Phase.failed_iff {p : Phase} : p.kind = .failed ↔ ∃ err, p = .raised err := by
  cases p with
  | raised err => exact ⟨fun _ => ⟨err, rfl⟩, fun _ => rfl⟩
  | _ => exact ⟨nofun, nofun⟩

theorem step_alive [DecidableEq T] {cfg : Config T} {m m' : TestManager T L}
    (h : step cfg m e = some m') (halive : m'.Alive) : m.Alive := by
  intro hfailed
  have hphase : m'.phase ≠ m.phase := fun heq => halive (heq ▸ hfailed)
  obtain ⟨err, hp⟩ := Phase.failed_iff.1 hfailed
  cases e with
  | runPasses call => simp [step, hp] at h
  | main ch => simp [step, TestManager.mainStep, hp] at h
  | copy o t => exact hphase (TestManager.work_phase h)
  | transform o seed => exact hphase (TestManager.work_phase h)
  | test o => exact hphase (TestManager.work_phase h)
  | init o seed => exact hphase (TestManager.runInit_phase h)
  | timeOut o => exact hphase (TestManager.work_phase h)
  | fail o => exact hphase (TestManager.work_phase h)

theorem alive_of_run [DecidableEq T] {cfg : Config T} {m m' : TestManager T L}
    (h : Run (step cfg) C m m') (halive : m'.Alive) : m.Alive := by
  induction h with
  | refl => exact halive
  | tail _ _ hv ih => exact ih (step_alive hv halive)

theorem move_invariant [DecidableEq T] {cfg : Config T} {m₀ m : TestManager T L}
    {P : TestManager T L → Prop} (h : Run (step cfg) C m₀ m) (halive : m.Alive) (h₀ : P m₀)
    (hmove : ∀ u e v, Reach (step cfg) m₀ u → u.Alive → P u → C u e → Move cfg u e v → P v) :
    P m := by
  induction h with
  | refl => exact h₀
  | tail hu hc hv ih =>
    have hu' := step_alive hv halive
    exact hmove _ _ _ hu.reach hu' (ih hu') hc (step_move hv halive)

end Cvise
