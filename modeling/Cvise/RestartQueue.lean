import Cvise.CommitSafety
import Cvise.ContextSteps

namespace Cvise
set_option autoImplicit true

variable {T L : Type}

/-- The pass with this number has finished, and no job or candidate of it is left. -/
structure Waiting (m : TestManager T L) (i : Nat) : Prop where
  context : ∃ c, m.passContexts[i]? = some c ∧ c.stage = .enumerating ∧ c.state = none ∧
    c.runningTransformOrderToState = [] ∧
      ¬ HasConsumer m.passContexts i c.pass.outputHintTypes
  jobs : ∀ j ∈ m.jobs, j.isTransform → j.passId ≠ some i
  candidate : ∀ cand, m.successCandidate = some cand → cand.passId ≠ some i

/-- Where a batch can start, the passes that stay initialized have finished, and nobody needs them. -/
def Settled (m : TestManager T L) : Prop :=
  (m.phase = .outer ∨ m.phase = .checking true) → ∀ i c, m.passContexts[i]? = some c →
    c.stage = .enumerating → c.state = none ∧ ¬ HasConsumer m.passContexts i c.pass.outputHintTypes

structure QueueInv (m : TestManager T L) : Prop where
  nodup : m.passRestartQueue.Nodup
  waiting : ∀ i ∈ m.passRestartQueue, Waiting m i
  settled : Settled m

section
variable {m m' : TestManager T L} {c c' : PassContext L} {cand : SuccessCandidate L}

theorem rewound_idle (hstate : c.state = none) (hrunning : c.runningTransformOrderToState = [])
    (hcand : cand.passId ≠ some i) : c.rewound cand i = none := by
  simp [PassContext.rewound, hrunning, hcand, hstate]

theorem afterResult_reinit {others : List (PassContext L)} :
    (c.afterResult cand i others).stage = .enumerating ↔ c.stage = .enumerating ∧
      c.rewound cand i = none ∧ ¬ others.any (·.consumes c.pass.outputHintTypes) := by
  have hreinit : ∀ c' : PassContext L, c'.stage = c.stage → c'.state = c.rewound cand i →
      c'.pass = c.pass → ((if c'.shouldReinitAfterTestCaseUpdate others then PassStage.beforeInit
        else c'.stage) = .enumerating ↔ c.stage = .enumerating ∧ c.rewound cand i = none ∧
          ¬ others.any (·.consumes c.pass.outputHintTypes)) := by
    intro c' hstage hstate hpass
    rw [PassContext.shouldReinitAfterTestCaseUpdate, hstage, hstate, hpass]
    split
    case isTrue h =>
      refine ⟨nofun, fun ⟨hstage, hnone, hothers⟩ => absurd h ?_⟩
      simpa [hstage, hnone] using hothers
    case isFalse h =>
      simp only [Bool.or_eq_true, Bool.and_eq_true, beq_iff_eq, not_or, not_and] at h
      exact ⟨fun hs => ⟨hs, Option.not_isSome_iff_eq_none.1 (h.1 hs), h.2⟩, And.left⟩
  exact hreinit _ rfl rfl rfl

theorem atBatchStart_enumerating : c.atBatchStart.stage = .enumerating ↔ c.stage = .enumerating := by
  rw [PassContext.atBatchStart]
  cases hstage : c.stage <;> simp

theorem Settled.same (h : Settled m) (hcontexts : m'.passContexts = m.passContexts)
    (hphase : m'.phase = .outer ∨ m'.phase = .checking true →
      m.phase = .outer ∨ m.phase = .checking true) : Settled m' := by
  intro hp i c hc hstage
  rw [hcontexts] at hc ⊢
  exact h (hphase hp) i c hc hstage

end

section
variable [DecidableEq T] {cfg : Config T} {m m' : TestManager T L} {e : Event T L}

theorem Settled.move (h : Settled m) (hmove : Move cfg m e m') : Settled m' := by
  have hother : m'.phase ≠ .outer → m'.phase ≠ .checking true → Settled m' := by
    intro houter hchecking hp
    rcases hp with hp | hp
    · exact absurd hp houter
    · exact absurd hp hchecking
  have hmove' := hmove
  cases hmove with
  | control hk houter hchecking =>
    refine h.same rfl ?_
    rintro (hp | hp)
    · exact .inr (houter hp)
    · exact .inr ((hchecking true hp).trans hp)
  | openTestCase =>
    intro _ i c hc hstage
    obtain ⟨p, _, rfl⟩ := List.mem_map.1 (List.mem_of_getElem? hc)
    cases hstage
  | commit hp hcand =>
    intro _ i c' hc' hstage
    rw [contextsAfterResult, List.getElem?_mapIdx] at hc'
    obtain ⟨c, hc, rfl⟩ := Option.map_eq_some_iff.1 hc'
    obtain ⟨_, hnone, hothers⟩ := afterResult_reinit.1 hstage
    refine ⟨hnone, fun hconsumer => hothers ?_⟩
    have hk : m.phase.kind ≠ .outside := by
      rw [hp]
      intro h
      cases h
    exact any_consumes.2 (hmove'.hasConsumer hk hconsumer)
  | skipEmpty => exact h.same rfl id
  | cacheHit hhit => exact hother (by simp [hhit.phase]) (by simp [hhit.phase])
  | work => exact h.same rfl id
  | initRun => exact h.same rfl id
  | init hp =>
    have houter : m.phase ≠ .outer := by rw [hp]; intro h; cases h
    have hchecking : m.phase ≠ .checking true := by rw [hp]; intro h; cases h
    exact hother houter hchecking
  | noTransform hp hkind =>
    exact hother (by rintro rfl; cases hkind) (by rintro rfl; cases hkind)
  | _ => exact hother (fun h => by cases h) fun h => by cases h

theorem JobStep.isTransform (h : JobStep cfg m e j j') : j'.isTransform = j.isTransform := by
  cases h with
  | ended => rfl
  | copy hwork => simp [Job.isTransform, hwork]
  | transform hwork => simp [Job.isTransform, hwork]
  | test hwork => simp [Job.isTransform, hwork]

namespace Waiting

theorem jobs_move {i : Nat} (h : Waiting m i) (hmove : Move cfg m e m') :
    ∀ j ∈ m'.jobs, j.isTransform → j.passId ≠ some i := by
  intro j' hj' htransform
  cases hmove.mem_jobs hj' with
  | kept hj => exact h.jobs j' hj htransform
  | step hj _ hstep =>
    obtain ⟨_, hpass, _⟩ := hstep.frame
    rw [hpass]
    exact h.jobs _ hj (hstep.isTransform ▸ htransform)
  | initRun _ _ _ _ heq _ =>
    rw [heq] at htransform
    cases htransform
  | scheduled hnew =>
    cases hnew with
    | init => cases htransform
    | fold => nofun
    | transform hc' _ hs =>
      intro hi
      cases hi
      obtain ⟨c, hc, _, hstate, _⟩ := h.context
      obtain ⟨c₀, hc₀, hkeeps⟩ := skipSubsets_from (m.disk m.currentTestCase) hc'
      cases hc.symm.trans hc₀
      cases (hkeeps.idle hstate).symm.trans hs

theorem candidate_move {i : Nat} (h : Waiting m i) (hmove : Move cfg m e m') :
    ∀ cand, m'.successCandidate = some cand → cand.passId ≠ some i := by
  intro cand hcand
  rcases hmove.successCandidate with heq | hnone | ⟨j, env, cand', hj, hwork, _, hcand', _, hpass, _⟩
  · exact h.candidate cand (heq ▸ hcand)
  · cases hnone.symm.trans hcand
  · cases hcand'.symm.trans hcand
    rw [hpass]
    exact h.jobs j hj (by rw [Job.isTransform, hwork])

theorem move {i : Nat} (h : Waiting m i) (hmove : Move cfg m e m') (hk : m.phase.kind ≠ .outside)
    (hi : ¬ m.passRestartQueue = i :: m'.passRestartQueue) : Waiting m' i := by
  obtain ⟨c, hc, hstage, hstate, hrunning, hconsumer⟩ := h.context
  obtain ⟨c', hc', hevolves⟩ := hmove.evolves hk hc
  have hpass := hevolves.frame.1
  have hconsumer' : ¬ HasConsumer m'.passContexts i c'.pass.outputHintTypes := by
    rw [hpass]
    exact fun hnew => hconsumer (hmove.hasConsumer hk hnew)
  refine ⟨⟨c', hc', ?_⟩, h.jobs_move hmove, h.candidate_move hmove⟩
  cases hevolves with
  | keeps hkeeps =>
    exact ⟨hkeeps.stage.trans hstage, hkeeps.idle hstate, hkeeps.running hstate hrunning, hconsumer'⟩
  | restaged _ hqueue => exact absurd (hqueue hstage) hi
  | initialized _ _ _ _ hstage' => cases hstage.symm.trans hstage'
  | atBatchStart => exact ⟨atBatchStart_enumerating.2 hstage, hstate, rfl, hconsumer'⟩
  | afterResult _ hcand =>
    have hidle := rewound_idle hstate hrunning (h.candidate _ hcand)
    refine ⟨afterResult_reinit.2 ⟨hstage, hidle, ?_⟩, hidle, rfl, hconsumer'⟩
    exact fun hany => hconsumer (any_consumes.1 hany)

end Waiting

theorem mem_restartable {contexts : List (PassContext L)} (h : i ∈ restartable contexts queue) :
    i ∉ queue ∧ ∃ c, contexts[i]? = some c ∧ c.stage = .enumerating ∧ c.state = none := by
  obtain ⟨_, hi⟩ := List.mem_filter.1 h
  obtain ⟨hqueue, hany⟩ := of_decide_eq_true hi
  obtain ⟨c, hc, hcan⟩ := (Option.any_eq_true ..).1 hany
  simp only [PassContext.canScheduleForRestart, Bool.and_eq_true, beq_iff_eq,
    Option.isNone_iff_eq_none] at hcan
  exact ⟨hqueue, c, hc, hcan.1⟩

namespace QueueInv

theorem joins (h : QueueInv m) (hphase : PhaseInv cfg m) (hmove : Move cfg m e m')
    (hstart : StartsBatch m m')
    (hi : i ∈ restartable (m.passContexts.map (·.atBatchStart)) m.passRestartQueue) :
    Waiting m' i := by
  have hk : m.phase.kind = .between := by
    rw [hstart.phase]
    rfl
  obtain ⟨_, c', hc', hstage, hstate⟩ := mem_restartable hi
  rw [List.getElem?_map] at hc'
  obtain ⟨c, hc, rfl⟩ := Option.map_eq_some_iff.1 hc'
  obtain ⟨_, hconsumer⟩ := h.settled (.inl hstart.phase) i c hc (atBatchStart_enumerating.1 hstage)
  apply Waiting.mk
  · refine ⟨c.atBatchStart, ?_, hstage, hstate, rfl, ?_⟩
    · rw [hstart.contexts, List.getElem?_map, hc]
      rfl
    · exact fun hnew => hconsumer (hmove.hasConsumer (by rw [hk]; nofun) hnew)
  · rw [hstart.jobs, hphase.jobs (by rw [hk]; nofun)]
    exact fun j hj => absurd hj List.not_mem_nil
  · rw [hstart.candidate, hphase.candidate (by rw [hk]; nofun) (by rw [hk]; nofun)]
    nofun

theorem outside (h : QueueInv m) (hmove : Move cfg m e m') (hk : m.phase.kind = .outside)
    (hi : i ∈ m'.passRestartQueue) : Waiting m' i := by
  cases hmove.outside hk with
  | same hcontexts hqueue =>
    have hold := h.waiting i (hqueue ▸ hi)
    exact ⟨hcontexts ▸ hold.context, hold.jobs_move hmove, hold.candidate_move hmove⟩
  | opened _ hqueue =>
    rw [hqueue] at hi
    cases hi
  | closed hcontexts hqueue =>
    have hold := h.waiting i (hqueue ▸ hi)
    obtain ⟨c, hc, hstage, hstate, hrunning, hconsumer⟩ := hold.context
    refine ⟨⟨{ c with temporaryRoot := none }, ?_, hstage, hstate, hrunning, ?_⟩,
      hold.jobs_move hmove, hold.candidate_move hmove⟩
    · rw [hcontexts, List.getElem?_map, hc]
      rfl
    · rintro ⟨k, o, hne, ho, hconsumes⟩
      rw [hcontexts, List.getElem?_map] at ho
      obtain ⟨o', ho', rfl⟩ := Option.map_eq_some_iff.1 ho
      exact hconsumer ⟨k, o', hne, ho', hconsumes⟩

theorem move (h : QueueInv m) (hphase : PhaseInv cfg m) (hmove : Move cfg m e m') :
    QueueInv m' where
  nodup := by
    rcases hmove.passRestartQueue with heq | heq | ⟨i, heq⟩ | hstart
    · exact heq ▸ h.nodup
    · exact heq ▸ List.nodup_nil
    · exact (List.nodup_cons.1 (heq ▸ h.nodup)).2
    · rw [hstart.queue, List.nodup_append]
      refine ⟨h.nodup, List.nodup_range.filter _, fun i hi k hk => ?_⟩
      rintro rfl
      exact (mem_restartable hk).1 hi
  waiting i hi := by
    by_cases hk : m.phase.kind = .outside
    · exact h.outside hmove hk hi
    · have hstays : i ∈ m.passRestartQueue → Waiting m' i := by
        intro hold
        refine (h.waiting i hold).move hmove hk fun hpop => ?_
        exact (List.nodup_cons.1 (hpop ▸ h.nodup)).1 hi
      rcases hmove.passRestartQueue with heq | heq | ⟨k, heq⟩ | hstart
      · exact hstays (heq ▸ hi)
      · rw [heq] at hi
        cases hi
      · exact hstays (heq ▸ List.mem_cons_of_mem k hi)
      · rw [hstart.queue] at hi
        rcases List.mem_append.1 hi with hi | hi
        · exact hstays hi
        · exact h.joins hphase hmove hstart hi
  settled := h.settled.move hmove

theorem of_run (h : Run (step cfg) C (TestManager.start disk t name n : TestManager T L) m)
    (halive : m.Alive) : QueueInv m := by
  apply move_invariant h halive
  · apply QueueInv.mk
    · exact List.nodup_nil
    · exact fun i hi => absurd hi List.not_mem_nil
    · exact fun _ i c hc => absurd hc nofun
  · intro u e v hreach hu hinv _ hmove
    exact hinv.move (phaseInv_of_run hreach hu) hmove

end QueueInv

/-- As long as no exception ends `run_passes`, each pass in the restart queue occurs once and waits for
its restart, so the restart does not raise. -/
theorem restartQueue_waiting (disk : T → TestCase) (t : T) (startWithPass : Option Str)
    (crashDirs : Nat) : ∀ m : TestManager T L,
      Reach (step cfg) (.start disk t startWithPass crashDirs) m → m.Alive →
        m.passRestartQueue.Nodup ∧
        (∀ i ∈ m.passRestartQueue, ∃ c, m.passContexts[i]? = some c ∧ c.stage = .enumerating ∧
          c.state = none ∧ c.runningTransformOrderToState = [] ∧
            ∀ j ∈ m.jobs, j.isTransform → j.passId ≠ some i) ∧
        ∀ ch ready m', m.phase = .restarting ready → m.restartStep ch ready = some m' → m'.Alive := by
  intro m hreach halive
  have hinv := QueueInv.of_run hreach halive
  refine ⟨hinv.nodup, fun i hi => ?_, fun ch ready m' hp hstep => ?_⟩
  · have hwaiting := hinv.waiting i hi
    obtain ⟨c, hc, hstage, hstate, hrunning, _⟩ := hwaiting.context
    exact ⟨c, hc, hstage, hstate, hrunning, hwaiting.jobs⟩
  · rw [TestManager.restartStep] at hstep
    split at hstep
    · cases hstep
      intro h
      cases h
    · rename_i i queue hqueue
      have hwaiting := hinv.waiting i (hqueue ▸ List.mem_cons_self)
      obtain ⟨c, hc, hstage, hstate, _, _⟩ := hwaiting.context
      simp only [hc, hstage, hstate, Option.isNone_none, and_self, if_true] at hstep
      split at hstep
      · split at hstep
        · split at hstep
          · cases hstep
            intro h
            cases h
          · cases hstep
        · cases hstep
          intro h
          cases h
      · cases hstep
        intro h
        cases h

end

theorem nil_not_mem_nil : ([] : Bytes) ∉ ([] : List Bytes) := List.not_mem_nil

/-- A pass that always generates the same hints. -/
def constantHints (inputs outputs : List Bytes) (b : HintBundle) (hinputs : [] ∉ inputs)
    (htyped : b.TypesIn outputs) : HintMethods where
  inputHintTypes := inputs
  outputHintTypes := outputs
  supportsDirTestCases := false
  generateNew _ _ _ := .ok (b, none)
  generateOnSuccess _ _ _ _ := .ok b
  createElementaryState _ n := (BinaryState.create n).map .binary
  inputs_typed := hinputs
  new_typed := by
    intro _ _ _ _ h
    cases h
    exact htyped
  onSuccess_typed := by
    intro _ _ _ _ _ h
    cases h
    exact htyped

def wholeFileBundle : HintBundle := { hints := [{ patches := [{ left := some 0, right := some 3 }] }] }

theorem wholeFileBundle_typed : wholeFileBundle.TypesIn [] := by
  intro h hh type htype
  cases List.mem_singleton.1 hh
  cases htype
  exact .inl rfl

def wholeFilePass : Pass Nat where
  repr := "WholeFilePass".toList
  userVisibleName := "WholeFilePass".toList
  methods := .hint (constantHints [] [] wholeFileBundle nil_not_mem_nil wholeFileBundle_typed)

def pairwiseConfig : Config Unit :=
  { nonemptyConfig with parallelTests := 2, parallelTests_pos := by decide }

/-- The attempt with the whole file fails and one of the trimming pass succeeds. At the start of the
next batch the former is queued, and its restart is next after the other has been initialized. -/
def untilRestart : List (Event Unit Nat) :=
  .runPasses ⟨[⟨wholeFilePass, []⟩, ⟨trimPass, []⟩], true, [()]⟩ ::
    List.replicate 3 (.main {}) ++
    [.main { dir := 1 }, .main { dir := 2 }, .main {}, .init 1 fun _ => 0, .init 2 fun _ => 0] ++
    List.replicate 8 (.main {}) ++ .main { dir := 3 } :: List.replicate 3 (.main {}) ++
    [.main { dir := 4 }, .main {}, .transform 3 fun _ => 0, .test 3, .copy 4 (),
      .transform 4 fun _ => 0, .test 4] ++
    List.replicate 8 (.main {}) ++ .main { dir := 5 } :: List.replicate 4 (.main {}) ++
    .main { lost := [5] } :: List.replicate 8 (.main {}) ++ [.main { dir := 6 }, .main {}]

def beforeRestart : TestManager Unit Nat :=
  (runFrom (step pairwiseConfig) threeBytes untilRestart).getD threeBytes

theorem untilRestart_run :
    runFrom (step pairwiseConfig) threeBytes untilRestart = some beforeRestart := rfl

def afterRestart : TestManager Unit Nat := (beforeRestart.restartStep { dir := 7 } []).getD threeBytes

/-- The pass with the whole file waits for its restart, which goes well. -/
theorem restartQueue_waiting_wholeFile : beforeRestart.passRestartQueue = [0] ∧
    (∃ c, beforeRestart.passContexts[0]? = some c ∧ c.stage = .enumerating ∧ c.state = none) ∧
      afterRestart.Alive ∧ afterRestart.jobs.map (·.order) = [6, 7] := by
  obtain ⟨_, hqueue, hrestart⟩ := restartQueue_waiting (fun _ => .file [1, 2, 3]) () none 0
    beforeRestart (runFrom_reach untilRestart_run) (by decide)
  refine ⟨by decide, ?_, ?_, by decide⟩
  · obtain ⟨c, hc, hstage, hstate, _⟩ := hqueue 0 (by decide)
    exact ⟨c, hc, hstage, hstate⟩
  · exact hrestart { dir := 7 } [] afterRestart rfl rfl

end Cvise
