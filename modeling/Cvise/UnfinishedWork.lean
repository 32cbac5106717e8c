import Cvise.HintFreshness

namespace Cvise
set_option autoImplicit true

variable {T L : Type}

def Pass.ReturnsState (p : Pass L) : Prop :=
  ∀ r seed original copied s x, p.transform r seed original copied (some s) = .ok x →
    x.result = .ok → x.state = some s

theorem Pass.returnsState_hint {p : Pass L} (h : p.isHintBased) : p.ReturnsState := by
  intro r seed original copied s x hx hresult
  unfold transform at hx
  split at hx
  · rename_i hs
    cases hs
    split at hx
    · cases hx
      cases hresult
    · obtain ⟨o, _, hx⟩ := except_bind_ok.1 hx
      split at hx
      · cases hx
        cases hresult
      · cases hx
        rfl
  · rename_i hp _
    rw [isHintBased, hp] at h
    cases h
  · cases hx

/-- The state `s` comes before the checks with these orders on, and before that to go on with. -/
structure PassContext.Before (c : PassContext L) (tc : TestCase) (order : Nat) (s : PassState L) :
    Prop where
  checks : ∀ e ∈ c.runningTransformOrderToState, order ≤ e.1 →
    c.pass.Chain tc (some s) (some e.2)
  state : c.state = none ∨ c.pass.Chain tc (some s) c.state

/-- The job transforms with the state `s`, and it has this state again if the transform succeeds. -/
def Checks (p : Pass L) (j : Job T L) (s : PassState L) : Prop :=
  ∀ env, j.work = .transform env →
    (env.result = none → env.state = some s ∧ env.pass = some p) ∧
      (p.ReturnsState → env.result = some .ok → env.state = some s)

/-- What is known of the unfinished checks of the pass with this number. -/
structure Tracked (m : TestManager T L) (i : Nat) (c : PassContext L) : Prop where
  below : ∀ e ∈ c.runningTransformOrderToState, e.1 < m.order
  before : ∀ e ∈ c.runningTransformOrderToState, c.Before (m.disk m.currentTestCase) e.1 e.2
  idle : c.stage ≠ .enumerating → c.runningTransformOrderToState = [] ∧
    ∀ cand, m.successCandidate = some cand → cand.passId ≠ some i
  jobs : ∀ j ∈ m.jobs, j.isTransform → j.passId = some i →
    ∃ s, (j.order, s) ∈ c.runningTransformOrderToState ∧ Checks c.pass j s
  candidate : c.pass.ReturnsState → ∀ cand, m.successCandidate = some cand → cand.passId = some i →
    ∃ s, cand.passState = some s ∧ cand.order < m.order ∧
      c.Before (m.disk m.currentTestCase) cand.order s

section
variable {m m' : TestManager T L} {c c' : PassContext L} {cand : SuccessCandidate L}

/-- `process_result` goes back to a state before each unfinished check. -/
theorem Tracked.rewound (h : Tracked m i c) (hp : c.pass.ReturnsState)
    (hcand : m.successCandidate = some cand) (he : e ∈ c.runningTransformOrderToState) :
    ∃ t, c.rewound cand i = some t ∧
      c.pass.Chain (m.disk m.currentTestCase) (some t) (some e.2) := by
  have hmem : e.1 ∈ c.runningTransformOrderToState.map Prod.fst := List.mem_map.2 ⟨e, he, rfl⟩
  obtain ⟨k, hk⟩ := Option.isSome_iff_exists.1 (List.isSome_min?_of_mem hmem)
  obtain ⟨hkmem, hkle⟩ := List.min?_eq_some_iff.1 hk
  have hle := hkle e.1 hmem
  rw [PassContext.rewound, hk]
  dsimp only
  split
  · rename_i hfirst
    obtain ⟨s, hs, _, hbefore⟩ := h.candidate hp cand hcand hfirst.1
    have hcandle : cand.order ≤ k := by simpa using hfirst.2
    exact ⟨s, hs, hbefore.checks e he (Nat.le_trans hcandle hle)⟩
  · obtain ⟨f, hf, hfk⟩ := List.mem_map.1 hkmem
    cases hfind : c.runningTransformOrderToState.find? (·.1 = k) with
    | none =>
      have hnone := List.find?_eq_none.1 hfind f hf
      exact absurd hfk (by simpa using hnone)
    | some g =>
      have hg := List.mem_of_find?_eq_some hfind
      have hgk : g.1 = k := by simpa using List.find?_some hfind
      exact ⟨g.2, rfl, (h.before g hg).checks e he (hgk ▸ hle)⟩

theorem PassContext.Keeps.chain (h : c.Keeps tc c') (hs : c'.state = some s) :
    c.pass.Chain tc c.state c'.state := by
  rcases h.state with hnone | hchain
  · cases hnone.symm.trans hs
  · exact hchain

theorem skipped_running {rnd : Nat → Nat} :
    (if c.canTransformNow then c.advanceWhileSubsetOfSucceeded rnd else
      c).runningTransformOrderToState = c.runningTransformOrderToState := by
  split
  · unfold PassContext.advanceWhileSubsetOfSucceeded
    split
    · rfl
    · rfl
  · rfl

theorem stage_of_transform (h : c.canTransformNow) : c.stage = .enumerating := by
  simp only [PassContext.canTransformNow, Bool.and_eq_true, beq_iff_eq] at h
  exact h.1.2

namespace PassContext.Before

theorem later (h : c.Before tc o s) (hkeeps : c.Keeps tc c') :
    c'.state = none ∨ c'.pass.Chain tc (some s) c'.state := by
  rcases h.state with hnone | hchain
  · exact .inl (hkeeps.idle hnone)
  · rcases hkeeps.state with hnone | hlater
    · exact .inl hnone
    · exact .inr (hkeeps.pass ▸ hchain.trans hlater)

theorem keeps (h : c.Before tc o s) (hkeeps : c.Keeps tc c')
    (hsub : c'.runningTransformOrderToState ⊆ c.runningTransformOrderToState) :
    c'.Before tc o s where
  checks e he ho := hkeeps.pass ▸ h.checks e (hsub he) ho
  state := h.later hkeeps

/-- The next check is for a state after the one to go on with. -/
theorem scheduled (h : c.Before tc o s) (hkeeps : c.Keeps tc c')
    (hchain : c.pass.Chain tc c.state (some t))
    (hrunning : c'.runningTransformOrderToState = c.runningTransformOrderToState ++ [(n, t)]) :
    c'.Before tc o s where
  checks e he ho := by
    rw [hkeeps.pass]
    rw [hrunning] at he
    rcases List.mem_append.1 he with he | he
    · exact h.checks e he ho
    · cases List.mem_singleton.1 he
      rcases h.state with hnone | hfirst
      · cases Pass.chain_none (hnone ▸ hchain)
      · exact hfirst.trans hchain
  state := h.later hkeeps

end PassContext.Before

theorem Tracked.start {m : TestManager T L} (hjobs : m.jobs = []) (hcand : m.successCandidate = none)
    (hempty : c.runningTransformOrderToState = []) : Tracked m i c := by
  constructor
  case below =>
    rw [hempty]
    exact fun e he => absurd he List.not_mem_nil
  case before =>
    rw [hempty]
    exact fun e he => absurd he List.not_mem_nil
  case idle =>
    rw [hcand]
    exact fun _ => ⟨hempty, nofun⟩
  case jobs =>
    rw [hjobs]
    exact fun j hj => absurd hj List.not_mem_nil
  case candidate =>
    rw [hcand]
    nofun

theorem NewJob.placed {m : TestManager T L} (h : NewJob m j) (hi : j.passId = some i) : i < m.passContexts.length := by
  cases h with
  | init hc =>
    cases hi
    exact (List.getElem?_eq_some_iff.1 hc).1
  | transform hc =>
    cases hi
    have hlt := (List.getElem?_eq_some_iff.1 hc).1
    rwa [skipSubsets, List.length_mapIdx] at hlt
  | fold => cases hi

end

section
variable [DecidableEq T] {cfg : Config T} {m m' : TestManager T L} {e : Event T L}

/-- The transform jobs of the pass with this number were there before the step. -/
def OldJobs (cfg : Config T) (m m' : TestManager T L) (k : Nat) : Prop :=
  ∀ j' ∈ m'.jobs, j'.isTransform → j'.passId = some k →
    ∃ j ∈ m.jobs, j' = j ∨ ∃ e, JobStep cfg m e j j'

/-- What a step in a batch makes of the context with the number `k`. -/
inductive PassContext.Goes (cfg : Config T) (m m' : TestManager T L) (k : Nat) (c : PassContext L) :
    PassContext L → Prop
  | keeps (h : c.Keeps (m.disk m.currentTestCase) c')
      (hsub : c'.runningTransformOrderToState ⊆ c.runningTransformOrderToState)
      (hstays : ∀ e ∈ c.runningTransformOrderToState,
        e ∈ c'.runningTransformOrderToState ∨ e.1 ∉ m'.jobs.map (·.order))
      (hjobs : OldJobs cfg m m' k) : Goes cfg m m' k c c'
  | fresh (hpass : c'.pass = c.pass)
      (hrunning : c'.runningTransformOrderToState = c.runningTransformOrderToState)
      (hidle : c.stage ≠ .enumerating ∨ m.passRestartQueue = k :: m'.passRestartQueue)
      (hjobs : OldJobs cfg m m' k) : Goes cfg m m' k c c'
  | scheduled (hstage : c.stage = .enumerating) (hchain : c.pass.Chain (m.disk m.currentTestCase) c.state (some s))
      (h : c.Keeps (m.disk m.currentTestCase) c')
      (hadvance : c.pass.Chain (m.disk m.currentTestCase) (some s) c'.state)
      (hrunning : c'.runningTransformOrderToState =
        c.runningTransformOrderToState ++ [(m.order, s)])
      (horder : m'.order = m.order + 1)
      (hjobs : ∀ j' ∈ m'.jobs, j' ∈ m.jobs ∨ j'.order = m.order ∧ Checks c.pass j' s) :
      Goes cfg m m' k c c'

variable {c c₀ c' : PassContext L}

theorem OldJobs.of_order (hmove : Move cfg m e m') (h : m'.order = m.order) :
    OldJobs cfg m m' k := by
  intro j' hj' htransform _
  cases hmove.mem_jobs hj' with
  | kept hj => exact ⟨j', hj, .inl rfl⟩
  | step hj _ hstep => exact ⟨_, hj, .inr ⟨e, hstep⟩⟩
  | initRun _ _ _ _ heq _ =>
    rw [heq] at htransform
    cases htransform
  | scheduled _ hjobs =>
    rcases hmove.orders with ⟨hsub, _⟩ | ⟨_, horder⟩
    · have hlength := hsub.length_le
      simp only [hjobs, List.length_map, List.length_append, List.length_singleton] at hlength
      omega
    · omega

theorem OldJobs.append {j₀ : Job T L} (h : m'.jobs = m.jobs ++ [j₀])
    (hj₀ : j₀.isTransform → j₀.passId ≠ some k) : OldJobs cfg m m' k := by
  intro j' hj' htransform hpass
  rw [h] at hj'
  rcases List.mem_append.1 hj' with hj' | hj'
  · exact ⟨j', hj', .inl rfl⟩
  · cases List.mem_singleton.1 hj'
    exact absurd hpass (hj₀ htransform)

theorem PassContext.Goes.refl (hjobs : OldJobs cfg m m' k) : c.Goes cfg m m' k c :=
  .keeps (.refl c) (List.Subset.refl _) (fun _ he => .inl he) hjobs

theorem PassContext.Goes.unchecked (h : c.Keeps (m.disk m.currentTestCase) c')
    (hrunning : c'.runningTransformOrderToState = c.runningTransformOrderToState)
    (hjobs : OldJobs cfg m m' k) : c.Goes cfg m m' k c' :=
  .keeps h (hrunning ▸ List.Subset.refl _) (fun _ he => .inl (hrunning ▸ he)) hjobs

theorem PassContext.Goes.dropped {c₁ : PassContext L} (h : c.Keeps (m.disk m.currentTestCase) c₁)
    (hrunning : c₁.runningTransformOrderToState =
      c.runningTransformOrderToState.filter (·.1 ≠ order))
    (hgone : m'.jobs = m.jobs.filter (·.order ≠ order)) (hjobs : OldJobs cfg m m' k) :
    c.Goes cfg m m' k c₁ := by
  refine .keeps h ?_ ?_ hjobs
  · rw [hrunning]
    exact List.filter_subset_self _
  · intro e he
    rw [hrunning, hgone]
    by_cases heq : e.1 = order
    · right
      intro hmem
      obtain ⟨j, hj, horder⟩ := List.mem_map.1 hmem
      exact of_decide_eq_true (List.mem_filter.1 hj).2 (horder.trans heq)
    · exact .inl (List.mem_filter.2 ⟨he, decide_eq_true heq⟩)

theorem modifyAt_goes {f : PassContext L → PassContext L}
    (heq : m'.passContexts = modifyAt i f m.passContexts) (hc : m.passContexts[k]? = some c)
    (hjobs : OldJobs cfg m m' k) (hf : ∀ c : PassContext L, c.Goes cfg m m' k (f c)) :
    ∃ c', m'.passContexts[k]? = some c' ∧ c.Goes cfg m m' k c' := by
  rw [heq]
  cases i with
  | none => exact ⟨c, hc, .refl hjobs⟩
  | some i =>
    rw [modifyAt, List.getElem?_modify, hc]
    split
    · exact ⟨f c, rfl, hf c⟩
    · exact ⟨c, rfl, .refl hjobs⟩

theorem set_goes (heq : m'.passContexts = m.passContexts.set i c')
    (hc : m.passContexts[k]? = some c) (hi : m.passContexts[i]? = some c₀)
    (hjobs : OldJobs cfg m m' k) (hc' : i = k → c₀.Goes cfg m m' k c') :
    ∃ c', m'.passContexts[k]? = some c' ∧ c.Goes cfg m m' k c' := by
  rw [heq]
  by_cases hk : i = k
  · have hgoes := hc' hk
    subst hk
    cases hi.symm.trans hc
    exact ⟨c', List.getElem?_set_self (List.getElem?_eq_some_iff.1 hc).1, hgoes⟩
  · exact ⟨c, (List.getElem?_set_ne hk).trans hc, .refl hjobs⟩

theorem Move.goes (hmove : Move cfg m e m') (hk : m.phase.kind = .batch)
    (hc : m.passContexts[k]? = some c) :
    ∃ c', m'.passContexts[k]? = some c' ∧ c.Goes cfg m m' k c' := by
  have habsurd : ∀ {p}, m.phase = p → p.kind ≠ .batch → False := by
    intro p hp hne
    exact hne (hp ▸ hk)
  have hold : m'.order = m.order → OldJobs cfg m m' k := .of_order hmove
  have happend : ∀ {j₀}, m'.jobs = m.jobs ++ [j₀] → (j₀.isTransform → j₀.passId ≠ some k) →
      OldJobs cfg m m' k := .append
  cases hmove with
  | noCandidate hp => exact (habsurd hp nofun).elim
  | call hp => exact (habsurd hp nofun).elim
  | skipEmpty hp => exact (habsurd hp nofun).elim
  | cacheHit hhit => exact (habsurd hhit.phase nofun).elim
  | openTestCase hp => exact (habsurd hp nofun).elim
  | close hp => exact (habsurd hp nofun).elim
  | startBatch hp => exact (habsurd hp nofun).elim
  | commit hp => exact (habsurd hp nofun).elim
  | finishTestCase hp => exact (habsurd hp nofun).elim
  | init hp hi hcan =>
    have hjobs := happend rfl nofun
    refine set_goes rfl hc hi hjobs fun _ => .fresh rfl rfl (.inl ?_) hjobs
    rw [(PassContext.canInitNow_iff.1 hcan).2.2.1]
    nofun
  | restart hp hq hi =>
    have hjobs := happend rfl nofun
    refine set_goes (List.set_set _) hc hi hjobs fun hik => .fresh rfl rfl (.inr ?_) hjobs
    rw [hq, hik]
    rfl
  | pop hp hq hi =>
    have hjobs := hold rfl
    refine set_goes rfl hc hi hjobs fun hik => .fresh rfl rfl (.inr ?_) hjobs
    rw [hq, hik]
  | fold => exact ⟨c, hc, .refl (happend rfl nofun)⟩
  | noTransform hp =>
    exact ⟨_, skipSubsets_getElem? hc, .unchecked (skipSubsets_keeps _ c) skipped_running (hold rfl)⟩
  | transform hp hi hcan hs hroot hadvance =>
    rename_i rnd i _ s _ _ _ _
    simp only
    have hskip : (skipSubsets rnd m.passContexts)[k]? = some _ := skipSubsets_getElem? hc
    have hkeeps := @skipSubsets_keeps L (m.disk m.currentTestCase) (rnd k) c
    by_cases hki : i = k
    · subst hki
      cases hi.symm.trans hskip
      have hchain : c.pass.Chain (m.disk m.currentTestCase) c.state (some s) := hs ▸ hkeeps.chain hs
      have hstage : c.stage = .enumerating := hkeeps.stage ▸ stage_of_transform hcan
      refine ⟨_, List.getElem?_set_self (List.getElem?_eq_some_iff.1 hi).1, ?_⟩
      refine .scheduled hstage hchain (hkeeps.trans (scheduledTransform_keeps hs hadvance)) ?_ ?_ rfl ?_
      · exact .single ⟨s, _, rfl, hkeeps.pass ▸ hadvance⟩
      · rw [TestManager.scheduledTransform, skipped_running]
      · intro j' hj'
        rcases List.mem_append.1 hj' with hj' | hj'
        · exact .inl hj'
        · cases List.mem_singleton.1 hj'
          refine .inr ⟨rfl, fun env henv => ?_⟩
          cases henv
          exact ⟨fun _ => ⟨rfl, congrArg some hkeeps.pass⟩, fun _ => nofun⟩
    · refine ⟨_, (List.getElem?_set_ne hki).trans hskip, .unchecked hkeeps skipped_running ?_⟩
      exact happend rfl fun _ h => hki (Option.some.inj h)
  | timedOut hp hj =>
    have hjobs := hold rfl
    apply modifyAt_goes rfl hc hjobs
    intro c
    split
    · exact .dropped ((c.dropRunning_keeps _).trans (PassContext.timedOut_keeps _)) rfl rfl hjobs
    · exact .unchecked c.timedOut_keeps rfl hjobs
  | initialized hp hj hfuture hwork hi hi' hstage =>
    have hjobs := hold rfl
    refine set_goes rfl hc hi' hjobs fun _ => .fresh rfl rfl (.inl ?_) hjobs
    rw [hstage]
    nofun
  | stopped hp hj hwork hi hi' hdefunct =>
    have hjobs := hold rfl
    refine set_goes rfl hc hi' hjobs fun _ => .dropped ?_ rfl rfl hjobs
    exact (PassContext.dropRunning_keeps _ _).trans (PassContext.stopped_keeps hdefunct)
  | ignored =>
    have hjobs := hold rfl
    apply modifyAt_goes rfl hc hjobs
    exact fun c => .dropped (c.dropRunning_keeps _) rfl rfl hjobs
  | accepted =>
    have hjobs := hold rfl
    apply modifyAt_goes rfl hc hjobs
    intro c
    exact .dropped ((c.dropRunning_keeps _).trans (PassContext.accepted_keeps _ _ _)) rfl rfl hjobs
  | _ => exact ⟨c, hc, .refl (hold rfl)⟩

theorem JobStep.checks (h : JobStep cfg m e j j') (hj : Checks p j s) : Checks p j' s := by
  cases h with
  | copy hwork =>
    intro env henv
    cases henv
    have hsame := hj _ hwork
    exact hsame
  | transform hwork hresult _ hrun =>
    intro env henv
    cases henv
    obtain ⟨hs, hp⟩ := (hj _ hwork).1 hresult
    rcases TestEnv.runTransform_cases hrun with ⟨x, hx, rfl, _⟩ | ⟨_, rfl | rfl⟩
    · refine ⟨fun h => (by cases h), fun hreturns hok => ?_⟩
      rw [TestEnv.callTransform, hp, hs] at hx
      exact hreturns _ _ _ _ s x hx (Option.some.inj hok)
    · exact ⟨fun h => (by cases h), fun _ h => by cases h⟩
    · exact ⟨fun _ => ⟨hs, hp⟩, fun _ hok => by cases hresult.symm.trans hok⟩
  | test hwork hresult =>
    intro env henv
    cases henv
    obtain ⟨folder, originalSize, newSize, heq⟩ := TestEnv.runTest_eq _ cfg.test (m.disk _)
    rw [heq]
    have hsame := hj _ hwork
    exact hsame
  | ended => exact hj

namespace Tracked

/-- A candidate that is new comes from one of the checks. -/
theorem candidate_move (h : Tracked m i c) (hmove : Move cfg m e m')
    (hcand : m'.successCandidate = some cand) (hi : cand.passId = some i) :
    m.successCandidate = some cand ∨ ∃ s, (cand.order, s) ∈ c.runningTransformOrderToState ∧
      (c.pass.ReturnsState → cand.passState = some s) := by
  rcases hmove.successCandidate with heq | hnone | ⟨j, env, cand', hj, hwork, hsuccess, hcand', ho, hp, hs⟩
  · exact .inl (heq ▸ hcand)
  · cases hnone.symm.trans hcand
  · cases hcand'.symm.trans hcand
    obtain ⟨s, hmem, hchecks⟩ := h.jobs j hj (by rw [Job.isTransform, hwork]) (hp ▸ hi)
    refine .inr ⟨s, ho ▸ hmem, fun hreturns => ?_⟩
    rw [TestEnv.success, decide_eq_true_eq] at hsuccess
    exact hs.trans ((hchecks env hwork).2 hreturns hsuccess.1)

/-- Without checks and without a candidate of the pass there is nothing to track. -/
theorem of_idle (h : Tracked m i c) (hmove : Move cfg m e m') (hjobs : OldJobs cfg m m' i)
    (hempty : c.runningTransformOrderToState = [])
    (hcand : ∀ cand, m.successCandidate = some cand → cand.passId ≠ some i)
    (hrunning : c'.runningTransformOrderToState = c.runningTransformOrderToState) :
    Tracked m' i c' := by
  have hnone : ∀ cand, m'.successCandidate = some cand → cand.passId ≠ some i := by
    intro cand hcand' hi
    rcases h.candidate_move hmove hcand' hi with hold | ⟨s, hmem, _⟩
    · exact hcand cand hold hi
    · rw [hempty] at hmem
      cases hmem
  rw [hempty] at hrunning
  constructor
  case below =>
    rw [hrunning]
    exact fun e he => absurd he List.not_mem_nil
  case before =>
    rw [hrunning]
    exact fun e he => absurd he List.not_mem_nil
  case idle => exact fun _ => ⟨hrunning, hnone⟩
  case jobs =>
    intro j' hj' htransform hi
    obtain ⟨j, hj, hstep⟩ := hjobs j' hj' htransform hi
    have hsame : j.isTransform = j'.isTransform ∧ j.passId = j'.passId := by
      rcases hstep with rfl | ⟨e, hstep⟩
      · exact ⟨rfl, rfl⟩
      · exact ⟨hstep.isTransform.symm, hstep.frame.2.1.symm⟩
    obtain ⟨s, hmem, _⟩ := h.jobs j hj (hsame.1 ▸ htransform) (hsame.2.trans hi)
    rw [hempty] at hmem
    cases hmem
  case candidate => exact fun _ cand hcand' hi => absurd hi (hnone cand hcand')

theorem jobs_move (h : Tracked m i c) (hjobs : OldJobs cfg m m' i) (hpass : c'.pass = c.pass)
    (hstays : ∀ e ∈ c.runningTransformOrderToState,
      e ∈ c'.runningTransformOrderToState ∨ e.1 ∉ m'.jobs.map (·.order))
    (hj' : j' ∈ m'.jobs) (htransform : j'.isTransform) (hi : j'.passId = some i) :
    ∃ s, (j'.order, s) ∈ c'.runningTransformOrderToState ∧ Checks c'.pass j' s := by
  have hthere : j'.order ∈ m'.jobs.map (·.order) := List.mem_map.2 ⟨j', hj', rfl⟩
  rw [hpass]
  obtain ⟨j, hj, rfl | ⟨e, hstep⟩⟩ := hjobs j' hj' htransform hi
  · obtain ⟨s, hmem, hchecks⟩ := h.jobs j' hj htransform hi
    exact ⟨s, (hstays _ hmem).resolve_right (absurd hthere), hchecks⟩
  · obtain ⟨horder, hpassId, _⟩ := hstep.frame
    obtain ⟨s, hmem, hchecks⟩ :=
      h.jobs j hj (hstep.isTransform ▸ htransform) (hpassId.symm.trans hi)
    rw [← horder] at hmem
    exact ⟨s, (hstays _ hmem).resolve_right (absurd hthere), hstep.checks hchecks⟩

theorem move (h : Tracked m i c) (hqueue : QueueInv m) (hmove : Move cfg m e m')
    (hdisk : m'.disk m'.currentTestCase = m.disk m.currentTestCase)
    (hc : m.passContexts[i]? = some c) (hgoes : c.Goes cfg m m' i c') : Tracked m' i c' := by
  have hle : m.order ≤ m'.order := by
    rcases hmove.orders with ⟨_, horder⟩ | ⟨_, horder⟩
    · exact Nat.le_of_eq horder.symm
    · exact horder ▸ Nat.le_succ _
  have hbefore : ∀ cand, m'.successCandidate = some cand → cand.passId = some i →
      c.pass.ReturnsState → ∃ s, cand.passState = some s ∧ cand.order < m'.order ∧
        c.Before (m.disk m.currentTestCase) cand.order s := by
    intro cand hcand hi hreturns
    rcases h.candidate_move hmove hcand hi with hold | ⟨s, hmem, hs⟩
    · obtain ⟨s, hs, hlt, hbefore⟩ := h.candidate hreturns cand hold hi
      exact ⟨s, hs, Nat.lt_of_lt_of_le hlt hle, hbefore⟩
    · exact ⟨s, hs hreturns, Nat.lt_of_lt_of_le (h.below _ hmem) hle, h.before _ hmem⟩
  cases hgoes with
  | fresh hpass hrunning hidle hjobs =>
    rcases hidle with hstage | hpop
    · obtain ⟨hempty, hcand⟩ := h.idle hstage
      exact h.of_idle hmove hjobs hempty hcand hrunning
    · have hwaiting := hqueue.waiting i (hpop ▸ List.mem_cons_self)
      obtain ⟨c₀, hc₀, _, _, hempty, _⟩ := hwaiting.context
      cases hc.symm.trans hc₀
      exact h.of_idle hmove hjobs hempty hwaiting.candidate hrunning
  | keeps hkeeps hsub hstays hjobs =>
    constructor
    case below => exact fun e he => Nat.lt_of_lt_of_le (h.below e (hsub he)) hle
    case before =>
      rw [hdisk]
      exact fun e he => (h.before e (hsub he)).keeps hkeeps hsub
    case idle =>
      intro hstage
      obtain ⟨hempty, hcand⟩ := h.idle (hkeeps.stage ▸ hstage)
      refine ⟨List.subset_nil.1 (hempty ▸ hsub), fun cand hcand' hi => ?_⟩
      rcases h.candidate_move hmove hcand' hi with hold | ⟨s, hmem, _⟩
      · exact hcand cand hold hi
      · rw [hempty] at hmem
        cases hmem
    case jobs => exact fun j' hj' => h.jobs_move hjobs hkeeps.pass hstays hj'
    case candidate =>
      intro hreturns cand hcand hi
      obtain ⟨s, hs, hlt, hold⟩ := hbefore cand hcand hi (hkeeps.pass ▸ hreturns)
      exact ⟨s, hs, hlt, hdisk ▸ hold.keeps hkeeps hsub⟩
  | @scheduled s _ hstage hchain hkeeps hadvance hrunning horder hjobs =>
    constructor
    case below =>
      rw [hrunning, horder]
      intro e he
      rcases List.mem_append.1 he with he | he
      · exact Nat.lt_succ_of_lt (h.below e he)
      · cases List.mem_singleton.1 he
        exact Nat.lt_succ_self _
    case before =>
      rw [hdisk]
      intro e he
      rcases List.mem_append.1 (hrunning ▸ he) with he | he
      · exact (h.before e he).scheduled hkeeps hchain hrunning
      · cases List.mem_singleton.1 he
        constructor
        case checks =>
          intro f hf hle
          rcases List.mem_append.1 (hrunning ▸ hf) with hf | hf
          · exact absurd (h.below f hf) (Nat.not_lt_of_le hle)
          · cases List.mem_singleton.1 hf
            exact .refl
        case state => exact .inr (hkeeps.pass ▸ hadvance)
    case idle => exact fun hne => absurd (hkeeps.stage.trans hstage) hne
    case jobs =>
      intro j' hj' htransform hi
      rw [hrunning, hkeeps.pass]
      rcases hjobs j' hj' with hj | ⟨ho, hchecks⟩
      · obtain ⟨s', hmem, hchecks⟩ := h.jobs j' hj htransform hi
        exact ⟨s', List.mem_append_left _ hmem, hchecks⟩
      · exact ⟨s, List.mem_append_right _ (ho ▸ List.mem_singleton_self _), hchecks⟩
    case candidate =>
      intro hreturns cand hcand hi
      obtain ⟨t, ht, hlt, hold⟩ := hbefore cand hcand hi (hkeeps.pass ▸ hreturns)
      exact ⟨t, ht, hlt, hdisk ▸ hold.scheduled hkeeps hchain hrunning⟩

theorem of_run (h : Run (step cfg) C (TestManager.start disk t name n : TestManager T L) m)
    (halive : m.Alive) (hk : m.phase.kind = .batch) (hc : m.passContexts[i]? = some c) :
    Tracked m i c := by
  have hall : m.phase.kind = .batch → ∀ i c, m.passContexts[i]? = some c → Tracked m i c := by
    apply move_invariant h halive
    · exact fun hk => absurd hk nofun
    · intro u e v hreach hu hinv _ hmove hk' i c' hc'
      rcases hmove.enters_batch hk' with hk | ⟨hp, hjobs, hcontexts, _⟩
      · obtain ⟨c, hc, _⟩ := hmove.evolves_from (by rw [hk]; nofun) hc'
        obtain ⟨c'', hc'', hgoes⟩ := hmove.goes hk hc
        cases hc''.symm.trans hc'
        obtain ⟨⟨hdisk, hcurrent⟩, _⟩ := hmove.in_batch hk'
        exact (hinv hk i c hc).move (QueueInv.of_run hreach hu) hmove (by rw [hdisk, hcurrent]) hc hgoes
      · have hphase := phaseInv_of_run hreach hu
        have hnone : u.jobs = [] := hphase.jobs (by rw [hp]; nofun)
        have hcand : v.successCandidate = none := by
          rcases hmove.successCandidate with heq | heq | ⟨j, _, _, hj, _⟩
          · exact heq.trans (hphase.candidate (by rw [hp]; nofun) (by rw [hp]; nofun))
          · exact heq
          · rw [hnone] at hj
            cases hj
        rw [hcontexts, List.getElem?_map] at hc'
        obtain ⟨c, _, rfl⟩ := Option.map_eq_some_iff.1 hc'
        exact .start (hjobs.trans hnone) hcand rfl
  exact hall hk i c hc

end Tracked

/-- The check of this order is for the state `s` of the pass with the number `i`, as long as it has
not completed. -/
def Unfinished (m : TestManager T L) (i order : Nat) (s : PassState L) : Prop :=
  order < m.order ∧ (order ∈ m.jobs.map (·.order) → ∃ c, m.passContexts[i]? = some c ∧
    (order, s) ∈ c.runningTransformOrderToState)

theorem Unfinished.move (h : Unfinished m i o s) (hphase : PhaseInv cfg m) (hmove : Move cfg m e m') :
    Unfinished m' i o s := by
  obtain ⟨hlt, hrunning⟩ := h
  have hold : o ∈ m'.jobs.map (·.order) → o ∈ m.jobs.map (·.order) := by
    intro ho
    rcases hmove.orders with ⟨hsub, _⟩ | ⟨heq, _⟩
    · exact hsub.subset ho
    · rcases List.mem_append.1 (heq ▸ ho) with ho | ho
      · exact ho
      · exact absurd (List.mem_singleton.1 ho) (Nat.ne_of_lt hlt)
  constructor
  · rcases hmove.orders with ⟨_, horder⟩ | ⟨_, horder⟩
    · exact horder ▸ hlt
    · exact horder ▸ Nat.lt_succ_of_lt hlt
  · intro ho
    obtain ⟨c, hc, hmem⟩ := hrunning (hold ho)
    have hk : m.phase.kind = .batch := by
      by_contra hne
      have hthere := hold ho
      rw [hphase.jobs hne] at hthere
      cases hthere
    obtain ⟨c', hc', hgoes⟩ := hmove.goes hk hc
    refine ⟨c', hc', ?_⟩
    cases hgoes with
    | keeps _ _ hstays => exact (hstays _ hmem).resolve_right (absurd ho)
    | fresh _ hsame => exact hsame ▸ hmem
    | scheduled _ _ _ _ happend => exact happend ▸ List.mem_append_left _ hmem

theorem Unfinished.of_run {u : TestManager T L}
    (hreach : Reach (step cfg) (TestManager.start disk t name n) u) (h : Unfinished u i o s)
    (hrun : Reach (step cfg) u m) (halive : m.Alive) : Unfinished m i o s := by
  apply move_invariant hrun halive h
  intro v e w hv hvalive hinv _ hmove
  exact hinv.move (phaseInv_of_run (hreach.trans hv) hvalive) hmove

/-- The jobs belong to passes that there are. -/
def JobsPlaced (m : TestManager T L) : Prop :=
  ∀ j ∈ m.jobs, ∀ i, j.passId = some i → i < m.passContexts.length

theorem JobsPlaced.move (h : JobsPlaced m) (hphase : PhaseInv cfg m) (hmove : Move cfg m e m') :
    JobsPlaced m' := by
  intro j' hj' i hi
  have hk : m'.phase.kind = .batch := by
    by_contra hne
    rw [(hphase.move hmove).jobs hne] at hj'
    cases hj'
  have hlength : m'.passContexts.length = m.passContexts.length := by
    apply hmove.length_passContexts
    rcases hmove.enters_batch hk with hk | ⟨hp, _⟩
    · rw [hk]
      nofun
    · rw [hp]
      nofun
  rw [hlength]
  cases hmove.mem_jobs hj' with
  | kept hj => exact h j' hj i hi
  | step hj _ hstep => exact h _ hj i (hstep.frame.2.1.symm.trans hi)
  | initRun hj _ _ _ heq _ =>
    subst heq
    exact h _ hj i hi
  | scheduled hnew => exact hnew.placed hi

theorem JobsPlaced.of_run (h : Run (step cfg) C (TestManager.start disk t name n : TestManager T L) m)
    (halive : m.Alive) : JobsPlaced m := by
  apply move_invariant h halive
  · exact fun j hj => absurd hj List.not_mem_nil
  · intro u e v hreach hu hinv _ hmove
    exact hinv.move (phaseInv_of_run hreach hu) hmove

/-- In a batch, a job that has yet to call its transform is an unfinished check of its state. -/
theorem unfinished_of_job (h : Reach (step cfg) (TestManager.start disk t name n) m) (halive : m.Alive)
    (hj : j ∈ m.jobs) (hwork : j.work = .transform env) (hresult : env.result = none)
    (hs : env.state = some s) (hi : j.passId = some i) : Unfinished m i j.order s := by
  have hk : m.phase.kind = .batch := by
    by_contra hne
    rw [(phaseInv_of_run h halive).jobs hne] at hj
    cases hj
  have hc := List.getElem?_eq_getElem (JobsPlaced.of_run h halive j hj i hi)
  have htracked := Tracked.of_run h halive hk hc
  obtain ⟨s', hmem, hchecks⟩ := htracked.jobs j hj (by rw [Job.isTransform, hwork]) hi
  have hs' := ((hchecks env hwork).1 hresult).1
  cases hs.symm.trans hs'
  exact ⟨htracked.below _ hmem, fun _ => ⟨_, hc, hmem⟩⟩

theorem afterBatch_commit (h : m.afterBatch.phase = .checking true) :
    ∃ cand, m.successCandidate = some cand ∧
      m.afterBatch.passContexts = contextsAfterResult cand m.passContexts := by
  unfold TestManager.afterBatch at h ⊢
  split at h
  · cases h
  · rename_i cand hcand
    rw [TestManager.processResult] at h ⊢
    simp only at h ⊢
    split at h
    · cases h
    · exact ⟨cand, hcand, rfl⟩

/-- After a commit each pass goes on at or before every state whose check has been scheduled and has
not completed, in the order of `advance()`, if its transforms return the states that they are given.
Those of the passes with hints do. -/
theorem unfinished_resumed (disk : T → TestCase) (t : T) (startWithPass : Option Str)
    (crashDirs : Nat) : (∀ p : Pass L, p.isHintBased → p.ReturnsState) ∧
      ∀ u m : TestManager T L, Reach (step cfg) (.start disk t startWithPass crashDirs) u →
        Reach (step cfg) u m →
        ∀ j ∈ u.jobs, ∀ env i s, j.work = .transform env → env.result = none → env.state = some s →
          j.passId = some i → j.order ∈ m.jobs.map (·.order) → m.phase = .batchEnd →
          m.endBatch.afterBatch.phase = .checking true →
            ∃ c, m.endBatch.afterBatch.passContexts[i]? = some c ∧ (c.pass.ReturnsState →
              ∃ s', c.state = some s' ∧
                c.pass.Chain (m.disk m.currentTestCase) (some s') (some s)) := by
  refine ⟨fun p => Pass.returnsState_hint, ?_⟩
  intro u m hu hm j hj env i s hwork hresult hs hi hthere hp hcommit
  have halive : m.Alive := by
    rw [TestManager.Alive, hp]
    intro h
    cases h
  have hreach := hu.trans hm
  have hscheduled := unfinished_of_job hu (alive_of_run hm halive) hj hwork hresult hs hi
  obtain ⟨c, hc, hmem⟩ := (hscheduled.of_run hu hm halive).2 hthere
  have htracked := Tracked.of_run hreach halive (by rw [hp]; rfl) hc
  obtain ⟨cand, hcand, hcontexts⟩ := afterBatch_commit hcommit
  refine ⟨c.afterResult cand i (m.passContexts.eraseIdx i), ?_, fun hreturns => ?_⟩
  · rw [hcontexts, contextsAfterResult, List.getElem?_mapIdx]
    exact congrArg (Option.map _) hc
  · exact htracked.rewound hreturns hcand hmem

end

theorem trimPass_returnsState : trimPass.ReturnsState := by
  intro r seed original copied s x hx _
  unfold Pass.transform at hx
  split at hx
  · rename_i hmethods hs
    cases hmethods
  · rename_i hmethods hs
    cases hs
    cases hmethods
    split at hx
    · cases hx
      rfl
    · cases hx
  · cases hx

/-- Both attempts of the trimming pass are scheduled, and then the second one succeeds. -/
def twoChecks : List (Event Unit Nat) :=
  .runPasses ⟨[⟨trimPass, []⟩], false, [()]⟩ :: List.replicate 3 (.main {}) ++ .main { dir := 1 } ::
    List.replicate 4 (.main {}) ++ .init 1 (fun _ => 0) :: List.replicate 7 (.main {}) ++
    .main { dir := 2 } :: List.replicate 3 (.main {}) ++ [.main { dir := 3 }, .main {}]

def secondSucceeds : List (Event Unit Nat) :=
  [.copy 3 (), .transform 3 fun _ => 0, .test 3] ++ List.replicate 4 (.main {})

def afterTwoChecks : TestManager Unit Nat :=
  (runFrom (step pairwiseConfig) threeBytes twoChecks).getD threeBytes

def afterSecond : TestManager Unit Nat :=
  (runFrom (step pairwiseConfig) afterTwoChecks secondSucceeds).getD threeBytes

theorem twoChecks_run :
    runFrom (step pairwiseConfig) threeBytes twoChecks = some afterTwoChecks := rfl

theorem secondSucceeds_run :
    runFrom (step pairwiseConfig) afterTwoChecks secondSucceeds = some afterSecond := rfl

def firstCheckEnv : TestEnv Unit Nat where
  state := some (.legacy 0)
  testCase := ()
  shouldCopyCurrentTestCase := true
  pass := some trimPass

def firstCheck : Job Unit Nat where
  order := 2
  pass := some trimPass
  passId := some 0
  passJobCounter := some 1
  work := .transform firstCheckEnv
  temporaryFolder := some 2

/-- The first attempt has not completed, so the pass goes back to its state. -/
theorem unfinished_resumed_trim : ∃ c, afterSecond.endBatch.afterBatch.passContexts[0]? = some c ∧
    ∃ s, c.state = some s ∧ c.pass.Chain (.file [1, 2, 3]) (some s) (some (.legacy 0)) := by
  have hjob : firstCheck ∈ afterTwoChecks.jobs := List.mem_of_head? rfl
  obtain ⟨_, hall⟩ := unfinished_resumed (L := Nat) (fun _ => .file [1, 2, 3]) () none 0
  obtain ⟨c, hc, hresumed⟩ := hall afterTwoChecks afterSecond (runFrom_reach twoChecks_run)
    (runFrom_reach secondSucceeds_run) firstCheck hjob firstCheckEnv 0 (.legacy 0) rfl rfl rfl rfl
    (by decide) (by decide) (by decide)
  have hpass : c.pass = trimPass := by
    cases hc
    rfl
  exact ⟨c, hc, hresumed (hpass ▸ trimPass_returnsState)⟩

end Cvise
