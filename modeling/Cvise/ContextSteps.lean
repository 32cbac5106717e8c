import Cvise.PhaseInvariant
import Mathlib.Logic.Relation

namespace Cvise
set_option autoImplicit true

variable {T L : Type}

namespace Pass

/-- One `advance()` of the pass, with some random number. -/
def AdvanceStep (p : Pass L) (tc : TestCase) (o o' : Option (PassState L)) : Prop :=
  ∃ s rnd, o = some s ∧ p.advance rnd tc s = .ok o'

/-- The order in which `advance()` goes through the states; after the last one comes none. -/
def Chain (p : Pass L) (tc : TestCase) : Option (PassState L) → Option (PassState L) → Prop :=
  Relation.ReflTransGen (p.AdvanceStep tc)

theorem chain_none {p : Pass L} (h : p.Chain tc none o) : o = none := by
  induction h with
  | refl => rfl
  | tail _ hstep ih =>
    obtain ⟨s, _, hs, _⟩ := hstep
    cases ih.symm.trans hs

theorem advance_hint {p : Pass L} (h : p.advance rnd tc x = .ok (some (.hint s'))) :
    ∃ s, x = .hint s ∧ s.advance rnd = some s' := by
  unfold advance at h
  split at h
  · rename_i s _
    obtain ⟨s'', hs, heq⟩ := Option.map_eq_some_iff.1 (Except.ok.inj h)
    cases heq
    exact ⟨s, rfl, hs⟩
  · obtain ⟨o, _, h⟩ := except_bind_ok.1 h
    obtain ⟨_, _, heq⟩ := Option.map_eq_some_iff.1 (Except.ok.inj h)
    cases heq
  · cases h

end Pass

theorem HintState.advance_bundlePaths {s s' : HintState} (h : s.advance rnd = some s') :
    s'.hintBundlePaths ⊆ s.hintBundlePaths := by
  obtain ⟨hdir, hspecial, hsub⟩ := HintState.advance_paths h
  intro e he
  obtain ⟨hd, ⟨u, hu, ht, hf⟩ | ⟨u, hu, ht, hf⟩⟩ := mem_hintBundlePaths.1 he
  · obtain ⟨v, hv, htype, hfile⟩ := hsub u hu
    exact mem_hintBundlePaths.2 ⟨hdir ▸ hd, .inl ⟨v, hv, htype ▸ ht, hfile ▸ hf⟩⟩
  · exact mem_hintBundlePaths.2 ⟨hdir ▸ hd, .inr ⟨u, hspecial ▸ hu, ht, hf⟩⟩

/-- A later state of a chain has no other hint files. -/
theorem Pass.chain_bundlePaths {p : Pass L} (h : p.Chain tc o (some (.hint s'))) :
    ∃ s, o = some (.hint s) ∧ s'.hintBundlePaths ⊆ s.hintBundlePaths := by
  generalize ho' : some (PassState.hint s') = o' at h
  induction h generalizing s' with
  | refl => exact ⟨s', ho'.symm, List.Subset.refl _⟩
  | tail _ hstep ih =>
    cases ho'
    obtain ⟨x, rnd, rfl, hadvance⟩ := hstep
    obtain ⟨s, rfl, hs⟩ := advance_hint hadvance
    obtain ⟨s₀, ho, hsub⟩ := ih rfl
    exact ⟨s₀, ho, List.Subset.trans (HintState.advance_bundlePaths hs) hsub⟩

theorem advanceWhile_chain {p : Pass L} (hp : p.methods = .hint methods) :
    p.Chain tc (some (.hint s)) ((advanceWhile skip rnd fuel s).map .hint) := by
  induction fuel generalizing s with
  | zero => exact .refl
  | succ n ih =>
    rw [advanceWhile]
    have hadvance : p.AdvanceStep tc (some (.hint s)) ((s.advance (rnd n)).map .hint) :=
      ⟨.hint s, rnd n, rfl, by simp only [Pass.advance, hp]⟩
    split
    · split
      · rename_i hnone
        rw [hnone] at hadvance
        exact .single hadvance
      · rename_i s' hs'
        rw [hs'] at hadvance
        exact .head hadvance ih
    · exact .refl

namespace PassContext

/-- The context goes on with the same initialization, to a later state or to the end. -/
structure Keeps (tc : TestCase) (c c' : PassContext L) : Prop where
  pass : c'.pass = c.pass
  enabled : c'.enabled = c.enabled
  defunct : c.defunct → c'.defunct
  stage : c'.stage = c.stage
  root : c'.temporaryRoot = c.temporaryRoot
  bundles : c'.hintBundlePaths = c.hintBundlePaths
  state : c'.state = none ∨ c.pass.Chain tc c.state c'.state
  running : c.state = none → c.runningTransformOrderToState = [] →
    c'.runningTransformOrderToState = []

namespace Keeps

theorem refl (c : PassContext L) : c.Keeps tc c :=
  ⟨rfl, rfl, id, rfl, rfl, rfl, .inr .refl, fun _ h => h⟩

theorem idle (h : Keeps tc c c') (hc : c.state = none) : c'.state = none := by
  rcases h.state with hnone | hchain
  · exact hnone
  · exact Pass.chain_none (hc ▸ hchain)

theorem trans (h : Keeps tc c c') (h' : Keeps tc c' c'') : Keeps tc c c'' where
  pass := h'.pass.trans h.pass
  enabled := h'.enabled.trans h.enabled
  defunct hc := h'.defunct (h.defunct hc)
  stage := h'.stage.trans h.stage
  root := h'.root.trans h.root
  bundles := h'.bundles.trans h.bundles
  state := by
    rcases h'.state with hnone | hchain
    · exact .inl hnone
    · rcases h.state with hnone | hfirst
      · exact .inl (Pass.chain_none (hnone ▸ hchain))
      · exact .inr (hfirst.trans (h.pass ▸ hchain))
  running hc hrunning := h'.running (h.idle hc) (h.running hc hrunning)

theorem bundlePaths (h : Keeps tc c c') (hc' : c'.state = some (.hint s')) :
    ∃ s, c.state = some (.hint s) ∧ s'.hintBundlePaths ⊆ s.hintBundlePaths := by
  rcases h.state with hnone | hchain
  · cases hnone.symm.trans hc'
  · exact Pass.chain_bundlePaths (hc' ▸ hchain)

end Keeps

theorem dropRunning_keeps (order : Nat) (c : PassContext L) : c.Keeps tc (c.dropRunning order) :=
  ⟨rfl, rfl, id, rfl, rfl, rfl, .inr .refl, fun _ h => by rw [dropRunning, h]; rfl⟩

theorem timedOut_keeps (c : PassContext L) : c.Keeps tc c.timedOut :=
  ⟨rfl, rfl, fun h => by rw [timedOut, h, Bool.true_or], rfl, rfl, rfl, .inr .refl, fun _ h => h⟩

theorem accepted_keeps (state : Option (PassState L)) (n : Nat) (c : PassContext L) :
    c.Keeps tc (c.accepted state n) :=
  ⟨rfl, rfl, id, rfl, rfl, rfl, .inr .refl, fun _ h => h⟩

theorem stopped_keeps {c : PassContext L} (h : c.defunct → b = true) :
    c.Keeps tc { c with state := none, defunct := b } :=
  ⟨rfl, rfl, h, rfl, rfl, rfl, .inl rfl, fun _ h => h⟩

theorem advanceWhileSubsetOfSucceeded_chain (c : PassContext L) (rnd : Nat → Nat) :
    c.pass.Chain tc c.state (c.advanceWhileSubsetOfSucceeded rnd).state := by
  unfold advanceWhileSubsetOfSucceeded
  split
  · rename_i hmethods hstate
    rw [hstate]
    exact advanceWhile_chain hmethods
  · exact .refl

theorem advanceWhileSubsetOfSucceeded_keeps (c : PassContext L) (rnd : Nat → Nat) :
    c.Keeps tc (c.advanceWhileSubsetOfSucceeded rnd) := by
  have hstate : c.pass.Chain tc c.state (c.advanceWhileSubsetOfSucceeded rnd).state :=
    c.advanceWhileSubsetOfSucceeded_chain rnd
  unfold advanceWhileSubsetOfSucceeded at hstate ⊢
  split at hstate
  · exact ⟨rfl, rfl, id, rfl, rfl, rfl, .inr hstate, fun _ h => h⟩
  · exact .refl c

end PassContext

section
variable {contexts : List (PassContext L)} {c c' : PassContext L}

theorem scheduledTransform_keeps (hs : c.state = some s)
    (hadvance : c.pass.advance r tc s = .ok next) :
    c.Keeps tc (TestManager.scheduledTransform c order s next) where
  pass := rfl
  enabled := rfl
  defunct := id
  stage := rfl
  root := rfl
  bundles := rfl
  state := .inr (.single ⟨s, r, hs, hadvance⟩)
  running hnone := by cases hs.symm.trans hnone

theorem skipSubsets_getElem? (hc : contexts[i]? = some c) :
    (skipSubsets rnd contexts)[i]? =
      some (if c.canTransformNow then c.advanceWhileSubsetOfSucceeded (rnd i) else c) := by
  rw [skipSubsets, List.getElem?_mapIdx, hc]
  rfl

theorem skipSubsets_keeps (rnd : Nat → Nat) (c : PassContext L) :
    c.Keeps tc (if c.canTransformNow then c.advanceWhileSubsetOfSucceeded rnd else c) := by
  split
  · exact c.advanceWhileSubsetOfSucceeded_keeps rnd
  · exact .refl c

theorem skipSubsets_from {i : Nat} (tc : TestCase) (hc' : (skipSubsets rnd contexts)[i]? = some c') :
    ∃ c : PassContext L, contexts[i]? = some c ∧ c.Keeps tc c' := by
  rw [skipSubsets, List.getElem?_mapIdx] at hc'
  obtain ⟨c, hc, rfl⟩ := Option.map_eq_some_iff.1 hc'
  exact ⟨c, hc, skipSubsets_keeps _ c⟩

end

inductive PassContext.Evolves (m m' : TestManager T L) (i : Nat) (c : PassContext L) :
    PassContext L → Prop
  | keeps (h : c.Keeps (m.disk m.currentTestCase) c') : Evolves m m' i c c'
  | restaged {st : PassStage} (hst : st ≠ .enumerating)
      (hqueue : c.stage = .enumerating → m.passRestartQueue = i :: m'.passRestartQueue)
      (hready : st ≠ .beforeInit → c.stage ≠ .enumerating →
        c.canInitNow (getFullyInitializedHintTypes m.passContexts)) :
      Evolves m m' i c { c with stage := st, passJobCounter := n }
  | initialized (hj : j ∈ m.jobs) (hfuture : j.future = .done) (hwork : j.work = .init env)
      (hi : j.passId = some i) (hstage : c.stage = .inInit)
      (hjobs : m'.jobs = m.jobs.filter (·.order ≠ j.order))
      (hdirs : m'.dirs = (m.deleteDirs c.temporaryRoot.toList).dirs) :
      Evolves m m' i c (c.initialized env.result j.temporaryFolder)
  | atBatchStart (hp : m.phase = .outer) : Evolves m m' i c c.atBatchStart
  | afterResult (hp : m.phase = .afterBatch) (hcand : m.successCandidate = some cand) :
      Evolves m m' i c (c.afterResult cand i (m.passContexts.eraseIdx i))

section
variable {cfg : Config T} {m m' : TestManager T L} {e : Event T L} {c c₀ c' : PassContext L}

theorem PassContext.Evolves.frame (h : c.Evolves m m' i c') :
    c'.pass = c.pass ∧ c'.enabled = c.enabled ∧ (c.defunct → c'.defunct) := by
  cases h with
  | keeps h => exact ⟨h.pass, h.enabled, h.defunct⟩
  | _ => exact ⟨rfl, rfl, id⟩

theorem PassContext.Evolves.consumes (h : c.Evolves m m' i c') (hc' : c'.consumes types) :
    c.consumes types := by
  obtain ⟨hpass, henabled, hdefunct⟩ := h.frame
  simp only [PassContext.consumes, Bool.and_eq_true, Bool.not_eq_true', hpass, henabled] at hc' ⊢
  obtain ⟨⟨he, hd⟩, hany⟩ := hc'
  refine ⟨⟨he, ?_⟩, hany⟩
  cases hc : c.defunct with
  | false => rfl
  | true => exact absurd (hdefunct hc) (by rw [hd]; nofun)

/-- Another usable pass takes hints of these types. -/
def HasConsumer (contexts : List (PassContext L)) (i : Nat) (types : List Bytes) : Prop :=
  ∃ k o, k ≠ i ∧ contexts[k]? = some o ∧ o.consumes types

theorem any_consumes {contexts : List (PassContext L)} :
    (contexts.eraseIdx i).any (·.consumes types) ↔ HasConsumer contexts i types := by
  rw [List.any_eq_true]
  constructor
  · rintro ⟨o, ho, hconsumes⟩
    obtain ⟨k, hk, ho⟩ := List.mem_eraseIdx_iff_getElem?.1 ho
    exact ⟨k, o, hk, ho, hconsumes⟩
  · rintro ⟨k, o, hk, ho, hconsumes⟩
    exact ⟨o, List.mem_eraseIdx_iff_getElem?.2 ⟨k, hk, ho⟩, hconsumes⟩

theorem modifyAt_evolves {f : PassContext L → PassContext L}
    (heq : m'.passContexts = modifyAt i f m.passContexts) (hc : m.passContexts[k]? = some c)
    (hf : ∀ c : PassContext L, c.Keeps (m.disk m.currentTestCase) (f c)) :
    ∃ c', m'.passContexts[k]? = some c' ∧ c.Evolves m m' k c' := by
  rw [heq]
  cases i with
  | none => exact ⟨c, hc, .keeps (.refl c)⟩
  | some i =>
    rw [modifyAt, List.getElem?_modify, hc]
    split
    · exact ⟨f c, rfl, .keeps (hf c)⟩
    · exact ⟨c, rfl, .keeps (.refl c)⟩

theorem set_evolves (heq : m'.passContexts = m.passContexts.set i c')
    (hc : m.passContexts[k]? = some c) (hi : m.passContexts[i]? = some c₀)
    (hc' : c₀.Evolves m m' i c') :
    ∃ c', m'.passContexts[k]? = some c' ∧ c.Evolves m m' k c' := by
  rw [heq]
  by_cases hk : i = k
  · subst hk
    cases hi.symm.trans hc
    exact ⟨c', List.getElem?_set_self (List.getElem?_eq_some_iff.1 hc).1, hc'⟩
  · exact ⟨c, (List.getElem?_set_ne hk).trans hc, .keeps (.refl c)⟩

theorem length_modifyAt {f : PassContext L → PassContext L} :
    (modifyAt i f m.passContexts).length = m.passContexts.length := by
  cases i with
  | none => rfl
  | some i => exact List.length_modify ..

variable [DecidableEq T]

/-- While `run_passes_for_test_case` goes on with a test case, its contexts stay in their places. -/
theorem Move.evolves (hmove : Move cfg m e m') (hk : m.phase.kind ≠ .outside)
    (hc : m.passContexts[k]? = some c) :
    ∃ c', m'.passContexts[k]? = some c' ∧ c.Evolves m m' k c' := by
  cases hmove with
  | cacheHit hhit =>
    rw [hhit.phase] at hk
    exact absurd rfl hk
  | openTestCase hp =>
    rw [hp] at hk
    exact absurd rfl hk
  | close hp =>
    rw [hp] at hk
    exact absurd rfl hk
  | startBatch hp => exact ⟨c.atBatchStart, by simp [hc], .atBatchStart hp⟩
  | init hp hi hcan =>
    apply set_evolves rfl hc hi
    refine .restaged (fun h => by cases h) (fun hstage => ?_) fun _ _ => hcan
    simp [PassContext.canInitNow, hstage] at hcan
  | restart hp hq hi hstage =>
    apply set_evolves (List.set_set _) hc hi
    refine .restaged (fun h => by cases h) (fun _ => hq) fun _ hne => absurd hstage hne
  | pop hp hq hi =>
    apply set_evolves rfl hc hi
    refine .restaged (fun h => by cases h) (fun _ => hq) fun hne => absurd rfl hne
  | noTransform => exact ⟨_, skipSubsets_getElem? hc, .keeps (skipSubsets_keeps _ c)⟩
  | transform hp hi hcan hs hroot hadvance =>
    rename_i rnd i _ _ _ _ _ _
    simp only
    have hskip : (skipSubsets rnd m.passContexts)[k]? = some _ := skipSubsets_getElem? hc
    by_cases hki : i = k
    · subst hki
      cases hi.symm.trans hskip
      refine ⟨_, List.getElem?_set_self (List.getElem?_eq_some_iff.1 hi).1, .keeps ?_⟩
      exact (skipSubsets_keeps (rnd i) c).trans (scheduledTransform_keeps hs hadvance)
    · exact ⟨_, (List.getElem?_set_ne hki).trans hskip, .keeps (skipSubsets_keeps _ c)⟩
  | timedOut =>
    apply modifyAt_evolves rfl hc
    intro c
    split
    · exact (c.dropRunning_keeps _).trans (PassContext.timedOut_keeps _)
    · exact c.timedOut_keeps
  | initialized hp hj hfuture hwork hi hi' hstage =>
    exact set_evolves rfl hc hi' (.initialized hj hfuture hwork hi hstage rfl rfl)
  | stopped hp hj hwork hi hi' hdefunct =>
    apply set_evolves rfl hc hi'
    exact .keeps ((PassContext.dropRunning_keeps _ _).trans (PassContext.stopped_keeps hdefunct))
  | ignored =>
    apply modifyAt_evolves rfl hc
    exact fun c => c.dropRunning_keeps _
  | accepted =>
    apply modifyAt_evolves rfl hc
    intro c
    exact (c.dropRunning_keeps _).trans (PassContext.accepted_keeps _ _ _)
  | commit hp hcand =>
    refine ⟨_, ?_, .afterResult hp hcand⟩
    rw [contextsAfterResult, List.getElem?_mapIdx, hc]
    rfl
  | _ => exact ⟨c, hc, .keeps (.refl c)⟩

theorem Move.length_passContexts (hmove : Move cfg m e m') (hk : m.phase.kind ≠ .outside) :
    m'.passContexts.length = m.passContexts.length := by
  cases hmove with
  | cacheHit hhit =>
    rw [hhit.phase] at hk
    exact absurd rfl hk
  | openTestCase hp =>
    rw [hp] at hk
    exact absurd rfl hk
  | close hp =>
    rw [hp] at hk
    exact absurd rfl hk
  | startBatch => exact List.length_map _
  | init => exact List.length_set
  | restart => exact List.length_set.trans List.length_set
  | pop => exact List.length_set
  | noTransform => exact List.length_mapIdx
  | transform => exact List.length_set.trans List.length_mapIdx
  | timedOut => exact length_modifyAt
  | initialized => exact List.length_set
  | stopped => exact List.length_set
  | ignored => exact length_modifyAt
  | accepted => exact length_modifyAt
  | commit => exact List.length_mapIdx
  | _ => rfl

theorem Move.evolves_from (hmove : Move cfg m e m') (hk : m.phase.kind ≠ .outside)
    (hc' : m'.passContexts[k]? = some c') :
    ∃ c : PassContext L, m.passContexts[k]? = some c ∧ c.Evolves m m' k c' := by
  have hlt : k < m.passContexts.length :=
    hmove.length_passContexts hk ▸ (List.getElem?_eq_some_iff.1 hc').1
  have hc := List.getElem?_eq_getElem hlt
  obtain ⟨c'', hc'', hevolves⟩ := hmove.evolves hk hc
  cases hc''.symm.trans hc'
  exact ⟨_, hc, hevolves⟩

theorem JobStep.frame (h : JobStep cfg m e j j') : j'.order = j.order ∧ j'.passId = j.passId ∧
    j'.temporaryFolder = j.temporaryFolder := by
  cases h with
  | _ => exact ⟨rfl, rfl, rfl⟩

/-- What the steps do that belong to no test case. -/
inductive OutsideStep (m m' : TestManager T L) : Prop
  | same (hcontexts : m'.passContexts = m.passContexts)
      (hqueue : m'.passRestartQueue = m.passRestartQueue)
      (hcandidate : m'.successCandidate = m.successCandidate)
  | opened (hcontexts : ∀ c ∈ m'.passContexts, ∃ p b, c = { PassContext.create p with enabled := b })
      (hqueue : m'.passRestartQueue = [])
  | closed (hcontexts : m'.passContexts = m.passContexts.map fun c => { c with temporaryRoot := none })
      (hqueue : m'.passRestartQueue = m.passRestartQueue)
      (hcandidate : m'.successCandidate = none)

theorem Move.outside (hmove : Move cfg m e m') (hk : m.phase.kind = .outside) : OutsideStep m m' := by
  have habsurd : ∀ {p}, m.phase = p → p.kind ≠ .outside → False := by
    intro p hp hne
    exact hne (hp ▸ hk)
  cases hmove with
  | cacheHit =>
    refine .opened (fun c hc => ?_) rfl
    obtain ⟨p, _, rfl⟩ := List.mem_map.1 hc
    exact ⟨p, true, rfl⟩
  | openTestCase =>
    refine .opened (fun c hc => ?_) rfl
    obtain ⟨p, _, rfl⟩ := List.mem_map.1 hc
    exact ⟨p, _, rfl⟩
  | close => exact .closed rfl rfl rfl
  | startBatch hp => exact (habsurd hp nofun).elim
  | init hp => exact (habsurd hp nofun).elim
  | restart hp => exact (habsurd hp nofun).elim
  | pop hp => exact (habsurd hp nofun).elim
  | noTransform hp => exact (habsurd hp nofun).elim
  | transform hp => exact (habsurd hp nofun).elim
  | timedOut hp => exact (habsurd hp nofun).elim
  | initialized hp => exact (habsurd hp nofun).elim
  | stopped hp => exact (habsurd hp nofun).elim
  | ignored hp => exact (habsurd hp nofun).elim
  | accepted hp => exact (habsurd hp nofun).elim
  | commit hp => exact (habsurd hp nofun).elim
  | _ => exact .same rfl rfl rfl

theorem Move.successCandidate (hmove : Move cfg m e m') :
    m'.successCandidate = m.successCandidate ∨ m'.successCandidate = none ∨
      ∃ j env cand, j ∈ m.jobs ∧ j.work = .transform env ∧ env.success ∧
        m'.successCandidate = some cand ∧ cand.order = j.order ∧ cand.passId = j.passId ∧
          cand.passState = env.state := by
  cases hmove with
  | accepted hp hj hwork hsuccess _ _ _ hcand =>
    rcases hcand with hcand | hcand
    · exact .inr (.inr ⟨_, _, _, hj, hwork, hsuccess, hcand, rfl, rfl, rfl⟩)
    · exact .inl hcand
  | close => exact .inr (.inl rfl)
  | commit => exact .inr (.inl rfl)
  | _ => exact .inl rfl

/-- The step that starts a batch, in which passes may join the restart queue. -/
structure StartsBatch (m m' : TestManager T L) : Prop where
  phase : m.phase = .outer
  contexts : m'.passContexts = m.passContexts.map (·.atBatchStart)
  jobs : m'.jobs = m.jobs
  candidate : m'.successCandidate = m.successCandidate
  queue : m'.passRestartQueue = m.passRestartQueue ++
    restartable (m.passContexts.map (·.atBatchStart)) m.passRestartQueue

theorem Move.passRestartQueue (hmove : Move cfg m e m') :
    m'.passRestartQueue = m.passRestartQueue ∨ m'.passRestartQueue = [] ∨
      (∃ i, m.passRestartQueue = i :: m'.passRestartQueue) ∨ StartsBatch m m' := by
  cases hmove with
  | cacheHit => exact .inr (.inl rfl)
  | openTestCase => exact .inr (.inl rfl)
  | startBatch hp =>
    by_cases hinterleaving : m.interleaving
    · exact .inr (.inr (.inr ⟨hp, rfl, rfl, rfl, if_pos hinterleaving⟩))
    · exact .inl (if_neg hinterleaving)
  | restart _ hq => exact .inr (.inr (.inl ⟨_, hq⟩))
  | pop _ hq => exact .inr (.inr (.inl ⟨_, hq⟩))
  | _ => exact .inl rfl

theorem Move.hasConsumer (hmove : Move cfg m e m') (hk : m.phase.kind ≠ .outside)
    (h : HasConsumer m'.passContexts i types) : HasConsumer m.passContexts i types := by
  obtain ⟨k, o', hne, ho', hconsumes⟩ := h
  obtain ⟨o, ho, hevolves⟩ := hmove.evolves_from hk ho'
  exact ⟨k, o, hne, ho, hevolves.consumes hconsumes⟩

end

end Cvise
