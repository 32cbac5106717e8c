import Cvise.HintFreshness

namespace Cvise
set_option autoImplicit true

variable {T L : Type}

def initializing (jobs : List (Job T L)) : List (Option Nat) :=
  (jobs.filter fun j => !j.isTransform).map (·.passId)

def stages (contexts : List (PassContext L)) : List PassStage := contexts.map (·.stage)

/-- Each job that initializes a pass has a pass of its own, which is in `IN_INIT`. -/
structure InitJobs (m : TestManager T L) : Prop where
  nodup : (initializing m.jobs).Nodup
  stage : ∀ o ∈ initializing m.jobs, ∃ i, o = some i ∧
    (stages m.passContexts)[i]? = some .inInit

section
variable {m m' : TestManager T L} {contexts : List (PassContext L)} {j : Job T L}

theorem mem_initializing {jobs : List (Job T L)} :
    o ∈ initializing jobs ↔ ∃ j ∈ jobs, j.isTransform = false ∧ j.passId = o := by
  simp only [initializing, List.mem_map, List.mem_filter, Bool.not_eq_true', and_assoc]

theorem initializing_append (hj : j.isTransform) (jobs : List (Job T L)) :
    initializing (jobs ++ [j]) = initializing jobs := by
  simp [initializing, hj]

theorem initializing_filter (p : Job T L → Bool) (jobs : List (Job T L)) :
    (initializing (jobs.filter p)).Sublist (initializing jobs) := by
  exact (List.filter_sublist.filter _).map _

theorem initializing_map {f : Job T L → Job T L} {jobs : List (Job T L)}
    (hf : ∀ j ∈ jobs, (f j).isTransform = j.isTransform ∧ (f j).passId = j.passId) :
    initializing (jobs.map f) = initializing jobs := by
  induction jobs with
  | nil => rfl
  | cons j jobs ih =>
    obtain ⟨htransform, hpass⟩ := hf j List.mem_cons_self
    have hrest := ih fun k hk => hf k (List.mem_cons_of_mem _ hk)
    simp only [initializing, List.map_cons] at hrest ⊢
    by_cases hj : j.isTransform
    · simp [htransform, hj, hrest]
    · simp [htransform, hj, hpass, hrest]

theorem stages_modifyAt {f : PassContext L → PassContext L} (hf : ∀ c, (f c).stage = c.stage) :
    stages (modifyAt i f contexts) = stages contexts := by
  cases i with
  | none => rfl
  | some i =>
    apply List.ext_getElem?
    intro k
    simp only [stages, modifyAt, List.getElem?_map, List.getElem?_modify]
    split
    · cases contexts[k]? with
      | none => rfl
      | some c => exact congrArg some (hf c)
    · rw [id_map']

theorem stages_getElem? {i : Nat} {c : PassContext L} (hc : contexts[i]? = some c) :
    (stages contexts)[i]? = some c.stage := by
  rw [stages, List.getElem?_map, hc]
  rfl

theorem stages_set (c : PassContext L) :
    stages (contexts.set i c) = (stages contexts).set i c.stage := List.map_set

theorem stages_set_same {c c' : PassContext L} (hc : contexts[i]? = some c)
    (hstage : c'.stage = c.stage) : stages (contexts.set i c') = stages contexts := by
  obtain ⟨hlt, heq⟩ := List.getElem?_eq_some_iff.1 (stages_getElem? hc)
  rw [stages_set, hstage, ← heq, List.set_getElem_self]

theorem stages_skipSubsets : stages (skipSubsets rnd contexts) = stages contexts := by
  apply List.ext_getElem?
  intro k
  simp only [stages, List.getElem?_map]
  cases hc : contexts[k]? with
  | none =>
    rw [skipSubsets, List.getElem?_mapIdx, hc]
    rfl
  | some c =>
    have hkeeps := @skipSubsets_keeps L (.file []) (rnd k) c
    rw [skipSubsets_getElem? hc]
    exact congrArg some hkeeps.stage

end

/-- What a step in a batch does to the initializations. -/
inductive Staged (m m' : TestManager T L) : Prop
  | kept (hstages : stages m'.passContexts = stages m.passContexts)
      (hjobs : (initializing m'.jobs).Sublist (initializing m.jobs))
  | popped (hi : (stages m.passContexts)[i]? ≠ some .inInit)
      (hstages : stages m'.passContexts = (stages m.passContexts).set i .beforeInit)
      (hjobs : m'.jobs = m.jobs)
  | started (hi : (stages m.passContexts)[i]? = some st) (hst : st ≠ .inInit)
      (hstages : stages m'.passContexts = (stages m.passContexts).set i .inInit)
      (hjobs : initializing m'.jobs = initializing m.jobs ++ [some i])
  | finished (hj : j ∈ m.jobs) (hinit : j.isTransform = false) (hi : j.passId = some i)
      (hstages : stages m'.passContexts = (stages m.passContexts).set i st)
      (hjobs : m'.jobs = m.jobs.filter (·.order ≠ j.order))

section
variable {m m' : TestManager T L}

theorem Staged.same (hstages : stages m'.passContexts = stages m.passContexts)
    (hjobs : initializing m'.jobs = initializing m.jobs) : Staged m m' :=
  .kept hstages (hjobs ▸ List.Sublist.refl _)

namespace InitJobs

/-- The pass whose stage changes has no job that initializes it. -/
theorem restage (h : InitJobs m) (hsub : (initializing m'.jobs).Sublist (initializing m.jobs))
    (hi : some i ∉ initializing m'.jobs)
    (hstages : stages m'.passContexts = (stages m.passContexts).set i st) : InitJobs m' := by
  refine ⟨h.nodup.sublist hsub, fun o ho => ?_⟩
  obtain ⟨k, rfl, hstage⟩ := h.stage o (hsub.subset ho)
  refine ⟨k, rfl, ?_⟩
  rw [hstages, List.getElem?_set_ne, hstage]
  rintro rfl
  exact hi ho

theorem not_initializing (h : InitJobs m) (hi : (stages m.passContexts)[i]? ≠ some .inInit) :
    some i ∉ initializing m.jobs := by
  intro ho
  obtain ⟨k, heq, hstage⟩ := h.stage _ ho
  cases heq
  exact hi hstage

theorem move (h : InitJobs m) (hstaged : Staged m m') : InitJobs m' := by
  cases hstaged with
  | kept hstages hjobs =>
    refine ⟨h.nodup.sublist hjobs, fun o ho => ?_⟩
    rw [hstages]
    exact h.stage o (hjobs.subset ho)
  | popped hi hstages hjobs =>
    refine h.restage (hjobs ▸ List.Sublist.refl _) ?_ hstages
    exact hjobs ▸ h.not_initializing hi
  | started hi hst hstages hjobs =>
    rename_i i st
    have hnot : some i ∉ initializing m.jobs :=
      h.not_initializing (by rw [hi]; exact fun h => hst (Option.some.inj h))
    have hlt := (List.getElem?_eq_some_iff.1 hi).1
    constructor
    · rw [hjobs, List.nodup_append]
      refine ⟨h.nodup, List.nodup_singleton _, fun o ho o' ho' => ?_⟩
      rw [List.mem_singleton.1 ho']
      exact fun heq => hnot (heq ▸ ho)
    · intro o ho
      rw [hstages]
      rcases List.mem_append.1 (hjobs ▸ ho) with ho | ho
      · obtain ⟨k, rfl, hstage⟩ := h.stage o ho
        refine ⟨k, rfl, ?_⟩
        rw [List.getElem?_set_ne, hstage]
        rintro rfl
        exact hnot ho
      · exact ⟨i, List.mem_singleton.1 ho, List.getElem?_set_self hlt⟩
  | finished hj hinit hi hstages hjobs =>
    rename_i j i st
    refine h.restage (hjobs ▸ initializing_filter _ _) ?_ hstages
    rw [hjobs]
    intro ho
    obtain ⟨k, hk, hkinit, hki⟩ := mem_initializing.1 ho
    obtain ⟨hk, horder⟩ := List.mem_filter.1 hk
    have hsame : j = k := by
      refine List.inj_on_of_nodup_map h.nodup ?_ ?_ (hi.trans hki.symm)
      · exact List.mem_filter.2 ⟨hj, by rw [hinit]; rfl⟩
      · exact List.mem_filter.2 ⟨hk, by rw [hkinit]; rfl⟩
    exact of_decide_eq_true horder (congrArg (·.order) hsame.symm)

end InitJobs

end

section
variable [DecidableEq T] {cfg : Config T} {m m' : TestManager T L} {e : Event T L}

theorem Move.staged (hmove : Move cfg m e m') (hordered : JobsOrdered m)
    (hk : m.phase.kind = .batch) : Staged m m' := by
  have habsurd : ∀ {p}, m.phase = p → p.kind ≠ .batch → False := by
    intro p hp hne
    exact hne (hp ▸ hk)
  have hworker : ∀ {j j' : Job T L}, j ∈ m.jobs → j'.isTransform = j.isTransform →
      j'.passId = j.passId →
      initializing (m.jobs.map fun k => if k.order = j.order then j' else k) =
        initializing m.jobs := by
    intro j j' hj htransform hpass
    apply initializing_map
    intro k hk
    split
    · rename_i horder
      cases hordered.inj hj hk horder.symm
      exact ⟨htransform, hpass⟩
    · exact ⟨rfl, rfl⟩
  cases hmove with
  | noCandidate hp => exact (habsurd hp nofun).elim
  | call hp => exact (habsurd hp nofun).elim
  | skipEmpty hp => exact (habsurd hp nofun).elim
  | cacheHit hhit => exact (habsurd hhit.phase nofun).elim
  | openTestCase hp => exact (habsurd hp nofun).elim
  | close hp => exact (habsurd hp nofun).elim
  | startBatch hp => exact (habsurd hp nofun).elim
  | commit hp => exact (habsurd hp nofun).elim
  | finishTestCase hp => exact (habsurd hp nofun).elim
  | init _ hc hcan =>
    refine .started (stages_getElem? hc) ?_ (stages_set _) ?_
    · rw [(PassContext.canInitNow_iff.1 hcan).2.2.1]
      nofun
    · rw [initializing, initializing, TestManager.scheduleInit, List.filter_append, List.map_append]
      rfl
  | restart _ _ hc hstage =>
    refine .started (stages_getElem? hc) ?_ ?_ ?_
    · rw [hstage]
      nofun
    · rw [TestManager.scheduleInit, List.set_set]
      exact stages_set _
    · rw [initializing, initializing, TestManager.scheduleInit, List.filter_append, List.map_append]
      rfl
  | pop _ _ hc hstage =>
    refine .popped ?_ (stages_set _) rfl
    rw [stages_getElem? hc, hstage]
    nofun
  | fold => exact .same rfl (initializing_append rfl _)
  | noTransform => exact .same stages_skipSubsets rfl
  | transform _ hc =>
    refine .same ?_ (initializing_append rfl _)
    exact Eq.trans (stages_set_same hc rfl) stages_skipSubsets
  | cancelLost =>
    refine .same rfl (initializing_map fun j _ => ?_)
    split
    · exact ⟨rfl, rfl⟩
    · exact ⟨rfl, rfl⟩
  | timedOut =>
    refine .kept (stages_modifyAt fun c => ?_) (initializing_filter _ _)
    split
    · rfl
    · rfl
  | initialized _ hj _ hwork hi =>
    exact .finished hj (by rw [Job.isTransform, hwork]) hi (stages_set _) rfl
  | stopped _ _ _ _ hc => exact .kept (stages_set_same hc rfl) (initializing_filter _ _)
  | ignored => exact .kept (stages_modifyAt fun _ => rfl) (initializing_filter _ _)
  | accepted => exact .kept (stages_modifyAt fun _ => rfl) (initializing_filter _ _)
  | endBatch => exact .kept rfl (List.nil_sublist _)
  | work hj _ hstep => exact .same rfl (hworker hj hstep.isTransform hstep.frame.2.1)
  | initRun hj _ hwork =>
    refine .same rfl (hworker hj ?_ rfl)
    simp only [Job.isTransform, hwork]
  | _ => exact .same rfl rfl

theorem InitJobs.of_run (h : Run (step cfg) C (TestManager.start disk t name n : TestManager T L) m)
    (halive : m.Alive) : InitJobs m := by
  have hnone : ∀ {m : TestManager T L}, m.jobs = [] → InitJobs m := by
    intro m hjobs
    constructor
    · rw [hjobs]
      exact List.nodup_nil
    · rw [hjobs]
      exact fun o ho => absurd ho List.not_mem_nil
  apply move_invariant h halive
  · exact hnone rfl
  · intro u e v hreach hu hinv _ hmove
    have hphase := phaseInv_of_run hreach hu
    by_cases hk' : v.phase.kind = .batch
    · rcases hmove.enters_batch hk' with hk | ⟨hp, hjobs, _⟩
      · exact hinv.move (hmove.staged (JobsOrdered.of_run hreach hu) hk)
      · exact hnone (hjobs.trans (hphase.jobs (by rw [hp]; nofun)))
    · exact hnone ((hphase.move hmove).jobs hk')

end

end Cvise
