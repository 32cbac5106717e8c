import Cvise.HintFreshness

namespace Cvise
set_option autoImplicit true

variable {T L : Type}

/-- Each pass that outputs an input type of the job's pass has been initialized with the current test
case, and the job has all bundles of this type. -/
def Served (m : TestManager T L) (env : InitEnv T L) : Prop :=
  ∀ t ∈ env.pass.inputHintTypes, (∃ c ∈ m.passContexts, t ∈ c.pass.outputHintTypes) ∧
    ∀ i c, m.passContexts[i]? = some c → t ∈ c.pass.outputHintTypes →
      c.stage = .enumerating ∧ i ∉ m.passRestartQueue ∧ Current m c ∧
        ∀ path, (t, path) ∈ c.hintBundlePaths → path ∈ env.dependeeBundlePaths

theorem Pass.isHintBased_of_outputs {p : Pass L} (h : t ∈ p.outputHintTypes) : p.isHintBased := by
  rw [Pass.outputHintTypes] at h
  rw [Pass.isHintBased]
  cases hmethods : p.methods with
  | hint m => rfl
  | legacy m =>
    rw [hmethods] at h
    cases h

/-- The job of this order initializes a pass with these bundles. -/
def Reads (m : TestManager T L) (order : Nat) (paths : List HintPath) : Prop :=
  ∃ j ∈ m.jobs, ∃ env, j.order = order ∧ j.work = .init env ∧ env.dependeeBundlePaths = paths

theorem Reads.anchored {m : TestManager T L} (h : Reads m order paths) (hinv : HintInv m) (hpath : path ∈ paths) :
    Anchored m path := by
  obtain ⟨j, hj, env, _, hwork, rfl⟩ := h
  apply hinv.used j hj path
  rw [Job.hintPaths, hwork]
  exact hpath

section
variable [DecidableEq T] {cfg : Config T} {m m' : TestManager T L} {e : Event T L}

namespace BatchStep
variable {c c' : PassContext L}

theorem served (h : BatchStep cfg m e m') (hserved : Served m env) : Served m' env := by
  intro t ht
  obtain ⟨⟨c, hc, hout⟩, hproducers⟩ := hserved t ht
  constructor
  · obtain ⟨i, hi⟩ := List.mem_iff_getElem?.1 hc
    obtain ⟨c', hc', hpass⟩ := h.pass hi
    exact ⟨c', List.mem_of_getElem? hc', hpass ▸ hout⟩
  · intro i c' hc' hout'
    obtain ⟨c, hc, hevolves⟩ := h.move.evolves_from h.inside hc'
    have hpass := hevolves.frame.1
    obtain ⟨hstage, hqueue, hcurrent, hbundles⟩ := hproducers i c hc (hpass ▸ hout')
    obtain ⟨c'', hc'', hkeeps⟩ := h.keeps hc hstage hqueue
    cases hc''.symm.trans hc'
    refine ⟨hkeeps.stage.trans hstage, fun hi => hqueue (h.queue_subset hi),
      h.current_keeps hcurrent hc hc' hkeeps, ?_⟩
    rw [hkeeps.bundles]
    exact hbundles

theorem served_init (h : BatchStep cfg m e m') (hinv : HintInv m)
    (htyped : ∀ c ∈ m.passContexts, ContextTyped c) (hc : m.passContexts[k]? = some c)
    (hcan : PassContext.canInitNow { c with stage := .beforeInit }
      (getFullyInitializedHintTypes m.passContexts))
    (hpass : env.pass = c.pass)
    (hdeps : env.dependeeBundlePaths = dependeeBundlePaths
      (m.passContexts.set k { c with stage := .beforeInit }) c.pass.inputHintTypes) :
    Served m' env := by
  intro t ht
  rw [hpass] at ht
  have hready := (PassContext.canInitNow_iff.1 hcan).2.2.2 t ht
  obtain ⟨⟨o, ho, hout⟩, hproducers⟩ := mem_getFullyInitializedHintTypes.1 hready
  constructor
  · obtain ⟨i, hi⟩ := List.mem_iff_getElem?.1 ho
    obtain ⟨o', ho', hpass'⟩ := h.pass hi
    exact ⟨o', List.mem_of_getElem? ho', hpass' ▸ hout⟩
  · intro i o' ho' hout'
    obtain ⟨o, ho, hevolves⟩ := h.move.evolves_from h.inside ho'
    have hout : t ∈ o.pass.outputHintTypes := hevolves.frame.1 ▸ hout'
    have hstage := hproducers o (List.mem_of_getElem? ho) hout
    have hne : k ≠ i := by
      rintro rfl
      cases hc.symm.trans ho
      exact (htyped c (List.mem_of_getElem? hc)).inputs (by rw [hstage]; nofun) t ht hout
    have hconsumer := BatchStep.hasConsumer hc hcan ht hout hne
    have hqueue := h.not_queued ho hconsumer
    have hcurrent := hinv.current i o ho hstage (.inr hconsumer)
    obtain ⟨o'', ho'', hkeeps⟩ := h.keeps ho hstage hqueue
    cases ho''.symm.trans ho'
    refine ⟨hkeeps.stage.trans hstage, fun hi => hqueue (h.queue_subset hi),
      h.current_keeps hcurrent ho ho' hkeeps, fun path hpath => ?_⟩
    rw [hdeps]
    refine List.mem_flatMap.2 ⟨o, List.mem_of_getElem? ((List.getElem?_set_ne hne).trans ho), ?_⟩
    rw [if_pos ⟨Pass.isHintBased_of_outputs hout, hstage⟩]
    rw [hkeeps.bundles] at hpath
    exact List.mem_map.2 ⟨(t, path), List.mem_filter.2 ⟨hpath, decide_eq_true ht⟩, rfl⟩

theorem served_jobs (h : BatchStep cfg m e m') (hinv : HintInv m)
    (htyped : ∀ c ∈ m.passContexts, ContextTyped c)
    (hserved : ∀ j ∈ m.jobs, ∀ env, j.work = .init env → Served m env) :
    ∀ j ∈ m'.jobs, ∀ env, j.work = .init env → Served m' env := by
  intro j' hj' env hwork
  cases h.move.mem_jobs hj' with
  | kept hj => exact h.served (hserved j' hj env hwork)
  | step hj _ hstep =>
    cases hstep with
    | ended => exact h.served (hserved _ hj env hwork)
    | _ => cases hwork
  | initRun hj _ hwork' _ heq =>
    subst heq
    cases hwork
    have hold := hserved _ hj _ hwork'
    exact h.served hold
  | scheduled hnew =>
    cases hnew with
    | init hc _ hcan =>
      cases hwork
      exact h.served_init hinv htyped hc hcan rfl rfl
    | _ => cases hwork

end BatchStep

theorem served_of_run (h : Run (step cfg) C (TestManager.start disk t name n : TestManager T L) m)
    (halive : m.Alive) : ∀ j ∈ m.jobs, ∀ env, j.work = .init env → Served m env := by
  apply move_invariant (P := fun m => ∀ j ∈ m.jobs, ∀ env, j.work = .init env → Served m env) h halive
  · exact fun j hj => absurd hj List.not_mem_nil
  · intro u e v hreach hu hinv _ hmove j hj
    have hstep := batchStep_of_run hreach hu hmove hj
    have hfresh := FreshInv.of_run hreach hu
    exact hstep.served_jobs (hfresh.batch hstep.before) hfresh.typed hinv j hj

/-- The hint files that a job reads are there, and they were generated from what the current test
case has on the disk. A job that initializes a pass is scheduled only when all passes that it depends
on are initialized with these contents, and it has all their bundles. -/
theorem hints_current (disk : T → TestCase) (t : T) (startWithPass : Option Str)
    (crashDirs : Nat) : ∀ m : TestManager T L,
      Reach (step cfg) (.start disk t startWithPass crashDirs) m → m.Alive →
        (∀ j ∈ m.jobs, ∀ path ∈ j.hintPaths, Stored m path) ∧
        ∀ j ∈ m.jobs, ∀ env, j.work = .init env → ∀ t ∈ env.pass.inputHintTypes,
          (∃ c ∈ m.passContexts, t ∈ c.pass.outputHintTypes) ∧
          ∀ c ∈ m.passContexts, t ∈ c.pass.outputHintTypes →
            c.stage = .enumerating ∧ Current m c ∧
              ∀ path, (t, path) ∈ c.hintBundlePaths → path ∈ env.dependeeBundlePaths := by
  intro m hreach halive
  constructor
  · intro j hj path hpath
    have hk : m.phase.kind = .batch := by
      by_contra hne
      rw [(phaseInv_of_run hreach halive).jobs hne] at hj
      cases hj
    obtain ⟨_, _, _, _, _, _, hstored⟩ :=
      ((FreshInv.of_run hreach halive).batch hk).used j hj path hpath
    exact hstored
  · intro j hj env hwork t ht
    obtain ⟨hproducer, hproducers⟩ := served_of_run hreach halive j hj env hwork t ht
    refine ⟨hproducer, fun c hc hout => ?_⟩
    obtain ⟨i, hi⟩ := List.mem_iff_getElem?.1 hc
    obtain ⟨hstage, _, hcurrent, hbundles⟩ := hproducers i c hi hout
    exact ⟨hstage, hcurrent, hbundles⟩

/-- The job stays the same until it leaves the manager. -/
theorem BatchStep.reads (h : BatchStep cfg m e m') (hreads : Reads m order paths)
    (hthere : order ∈ m'.jobs.map (·.order)) : Reads m' order paths := by
  obtain ⟨j, hj, env, rfl, hwork, rfl⟩ := hreads
  obtain ⟨j', hj', horder⟩ := List.mem_map.1 hthere
  cases h.move.mem_jobs hj' with
  | kept hold =>
    cases h.ordered.inj hold hj horder
    exact ⟨_, hj', env, rfl, hwork, rfl⟩
  | step hold _ hstep =>
    cases h.ordered.inj hold hj (hstep.frame.1.symm.trans horder)
    cases hstep with
    | ended => exact ⟨_, hj', env, rfl, hwork, rfl⟩
    | copy hwork' => cases hwork.symm.trans hwork'
    | transform hwork' => cases hwork.symm.trans hwork'
    | test hwork' => cases hwork.symm.trans hwork'
  | initRun hold _ hwork' _ heq =>
    subst heq
    cases h.ordered.inj hold hj horder
    cases hwork.symm.trans hwork'
    exact ⟨_, hj', _, rfl, rfl, rfl⟩
  | scheduled hnew =>
    have hlt := h.ordered.below j.order (List.mem_map.2 ⟨j, hj, rfl⟩)
    rw [← horder, hnew.order] at hlt
    exact absurd hlt (Nat.lt_irrefl _)

/-- While the job is there, so are the directories of its bundles. -/
theorem reads_run (hreach : Reach (step cfg) (TestManager.start disk t name n) m)
    (hreads : Reads m order paths)
    (hrun : Run (step cfg) (fun u _ => order ∈ u.jobs.map (·.order)) m m') (halive : m'.Alive)
    (hj' : order ∈ m'.jobs.map (·.order)) :
    Reach (step cfg) (.start disk t name n) m' ∧ Reads m' order paths ∧
      ∀ path ∈ paths, m'.dirs path.1 = m.dirs path.1 := by
  induction hrun with
  | refl => exact ⟨hreach, hreads, fun _ _ => rfl⟩
  | tail _ hj hstep ih =>
    rename_i u e v _
    have hu := step_alive hstep halive
    obtain ⟨hreach', hreads', hdirs⟩ := ih hu hj
    have hmove := step_move hstep halive
    obtain ⟨j', hmem, _⟩ := List.mem_map.1 hj'
    have hbatch := batchStep_of_run hreach' hu hmove hmem
    have hinv := (FreshInv.of_run hreach' hu).batch hbatch.before
    refine ⟨.tail hreach' trivial hstep, hbatch.reads hreads' hj', fun path hpath => ?_⟩
    exact (hbatch.anchored_dirs (hreads'.anchored hinv hpath)).trans (hdirs path hpath)

/-- As long as a job that initializes a pass is among the jobs, the directories of its bundles are not
deleted. -/
theorem dependees_outlive (disk : T → TestCase) (t : T) (startWithPass : Option Str)
    (crashDirs : Nat) : ∀ m : TestManager T L,
      Reach (step cfg) (.start disk t startWithPass crashDirs) m →
        ∀ j ∈ m.jobs, ∀ env, j.work = .init env → ∀ m' : TestManager T L,
          Run (step cfg) (fun u _ => j.order ∈ u.jobs.map (·.order)) m m' → m'.Alive →
            j.order ∈ m'.jobs.map (·.order) → ∀ path ∈ env.dependeeBundlePaths,
              m'.dirs path.1 ≠ none ∧ m'.dirs path.1 = m.dirs path.1 := by
  intro m hreach j hj env hwork m' hrun halive hj' path hpath
  have hreads : Reads m j.order env.dependeeBundlePaths := ⟨j, hj, env, rfl, hwork, rfl⟩
  obtain ⟨hreach', hreads', hdirs⟩ := reads_run hreach hreads hrun halive hj'
  obtain ⟨k, hk, _⟩ := List.mem_map.1 hj'
  have hbatch : m'.phase.kind = .batch := by
    by_contra hne
    rw [(phaseInv_of_run hreach' halive).jobs hne] at hk
    cases hk
  have hinv := (FreshInv.of_run hreach' halive).batch hbatch
  obtain ⟨_, _, _, _, _, _, files, b, hd, _⟩ := hreads'.anchored hinv hpath
  exact ⟨by rw [hd]; nofun, hdirs path hpath⟩

end

def typeBundle : HintBundle := { hints := [{ type := some 0 }], vocabulary := [[0x40, 0x74]] }

theorem typeBundle_typed : typeBundle.TypesIn [[0x40, 0x74]] := by
  intro h hh type htype
  cases List.mem_singleton.1 hh
  cases htype
  exact .inr (List.mem_singleton.2 rfl)

/-- A pass that generates a hint of the type `@t` for other passes. -/
def producerPass : Pass Nat where
  repr := "ProducerPass".toList
  userVisibleName := "ProducerPass".toList
  methods := .hint (constantHints [] [[0x40, 0x74]] typeBundle nil_not_mem_nil typeBundle_typed)

def consumerPass : Pass Nat where
  repr := "ConsumerPass".toList
  userVisibleName := "ConsumerPass".toList
  methods := .hint
    (constantHints [[0x40, 0x74]] [] wholeFileBundle (by decide) wholeFileBundle_typed)

/-- The first pass is initialized, and then a job for the second one is scheduled. -/
def untilConsumer : List (Event Unit Nat) :=
  .runPasses ⟨[⟨producerPass, []⟩, ⟨consumerPass, []⟩], true, [()]⟩ :: List.replicate 3 (.main {}) ++
    .main { dir := 1 } :: List.replicate 4 (.main {}) ++ .init 1 (fun _ => 0) ::
    List.replicate 4 (.main {}) ++ [.main { dir := 2 }]

def consumerScheduled : TestManager Unit Nat :=
  (runFrom (step pairwiseConfig) threeBytes untilConsumer).getD threeBytes

theorem untilConsumer_run :
    runFrom (step pairwiseConfig) threeBytes untilConsumer = some consumerScheduled := rfl

/-- The job is handed the bundle of the first pass. -/
theorem consumer_job : ∃ j ∈ consumerScheduled.jobs, j.order = 2 ∧
    ∃ env, j.work = .init env ∧ env.dependeeBundlePaths = [(1, 0)] := by
  obtain ⟨j, hj, hkey⟩ := List.mem_map.1 (show (2, false, [(1, 0)]) ∈
    consumerScheduled.jobs.map (fun j => (j.order, j.isTransform, j.hintPaths)) by decide)
  obtain ⟨horder, hrest⟩ := Prod.mk.inj hkey
  obtain ⟨hinit, hpaths⟩ := Prod.mk.inj hrest
  refine ⟨j, hj, horder, ?_⟩
  cases hwork : j.work with
  | init env =>
    rw [Job.hintPaths, hwork] at hpaths
    exact ⟨env, rfl, hpaths⟩
  | transform env =>
    rw [Job.isTransform, hwork] at hinit
    cases hinit

theorem hints_current_consumer : ∃ j ∈ consumerScheduled.jobs,
    j.hintPaths = [(1, 0)] ∧ Stored consumerScheduled (1, 0) := by
  obtain ⟨j, hj, _, env, hwork, hpaths⟩ := consumer_job
  have hcurrent := (hints_current (fun _ => .file [1, 2, 3]) () none 0 consumerScheduled
    (runFrom_reach untilConsumer_run) (by decide)).1 j hj (1, 0)
  have hpaths : j.hintPaths = [(1, 0)] := by
    rw [Job.hintPaths, hwork]
    exact hpaths
  exact ⟨j, hj, hpaths, hcurrent (hpaths ▸ List.mem_singleton.2 rfl)⟩

def consumerLoaded : TestManager Unit Nat :=
  (step pairwiseConfig consumerScheduled (.init 2 fun _ => 0)).getD consumerScheduled

theorem load_step :
    step pairwiseConfig consumerScheduled (.init 2 fun _ => 0) = some consumerLoaded := rfl

/-- The bundle is still there after the job has run. -/
theorem dependees_outlive_consumer : consumerLoaded.jobs.map (·.future) = [.done] ∧
    consumerLoaded.dirs 1 ≠ none := by
  obtain ⟨j, hj, horder, env, hwork, hpaths⟩ := consumer_job
  have hrun : Run (step pairwiseConfig) (fun u _ => j.order ∈ u.jobs.map (·.order))
      consumerScheduled consumerLoaded := .tail .refl (by rw [horder]; decide) load_step
  have houtlive := dependees_outlive (fun _ => .file [1, 2, 3]) () none 0 consumerScheduled
    (runFrom_reach untilConsumer_run) j hj env hwork consumerLoaded hrun (by decide)
    (by rw [horder]; decide)
  exact ⟨by decide, (houtlive (1, 0) (hpaths ▸ List.mem_singleton.2 rfl)).1⟩

end Cvise
